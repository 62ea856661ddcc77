import Trurl.Nmalloc.Strings

/-!
# The length of a string

`aobstack_alloc_str` serves both widths under one assertion on the length. The length of a `tn_str8`
has 8 bits, and assigning a longer one to it leaves its low byte.
-/

namespace Trurl.Nmalloc

open Lib
open Oash (Entry KeyAt hashOf)

/-- `len`, in the width of the string. -/
def Str.len : Str → ℕ
  | .str8 len _ => len.toNat
  | .str16 len _ => len.toNat

/-- The string at this address has this length. -/
def HasLength (na : Alloc) (s n : ℕ) : Prop :=
  ∃ pd str, na.privdata = some pd ∧ pd.ob[s]? = some str ∧ str.len = n

/-- The string that a call returns has the length that was asked for. -/
def Measures (murmur3Hash : Bytes → UInt32) (na : Alloc) (r : Request) : Prop :=
  ∀ na' s, (stringMachine murmur3Hash).step na r = .ok (na', s) → HasLength na' s r.key.bytes.length

/-- The put into the own table comes to the string. -/
def OnObstack (murmur3Hash : Bytes → UInt32) (na : Alloc) (r : Request) : Prop :=
  ∃ pd ht, na.privdata = some pd ∧ pd.ht = some ht ∧
    Oash.PutMeets ht r.key (hashOf murmur3Hash r.key)

/-- The length fits the width, or the string is there already. -/
def Fits (murmur3Hash : Bytes → UInt32) (na : Alloc) (r : Request) : Prop :=
  r.max = .uint16 ∨ r.key.bytes.length ≤ 255 ∨ OnObstack murmur3Hash na r

variable {murmur3Hash : Bytes → UInt32} {na na' : Alloc} {r : Request} {ht : Oash.Table ℕ}
  {ob : List Str} {k : Key} {s : ℕ}

/-- A new string has its length exactly if the length fits the width. -/
theorem len_newStr_iff (max : Width) (k : Key) :
    (newStr max k.bytes k.bytes.length).len = k.bytes.length ↔
      max = .uint16 ∨ k.bytes.length ≤ 255 := by
  have hshort := k.short
  cases max with
  | uint8 =>
    simp only [newStr, Str.len, UInt8.toNat_ofNat', reduceCtorEq, false_or]
    omega
  | uint16 =>
    simp only [newStr, Str.len, UInt16.toNat_ofNat', true_or, iff_true]
    omega

/-- The strings that the own table knows have their lengths. -/
structure Measured (ht : Oash.Table ℕ) (ob : List Str) : Prop where
  own : Own ht
  len_eq : ∀ k e de s, Entry ht k e de → de.data = some s →
    ∃ str, ob[s]? = some str ∧ str.len = k.bytes.length

/-- The same for the allocator, which has no table before the first string. -/
def AllMeasured (na : Alloc) : Prop :=
  ∃ pd, na.privdata = some pd ∧ (pd.ht = none ∧ na.refcnt = 0 ∧ pd.ob = [] ∨
    ∃ ht, pd.ht = some ht ∧ Measured ht pd.ob)

theorem blank_measured : Measured blankTable [] where
  own := blank_own
  len_eq _ _ _ _ hentry := absurd hentry not_entry_blank

/-- The next call sees measured strings in its table. -/
theorem AllMeasured.ownTable (h : AllMeasured na) : ∃ pd na₁ ht, na.privdata = some pd ∧
    (ownTable na pd : Call Unit (Alloc × Oash.Table ℕ)) = ⟨[], .ok (na₁, ht)⟩ ∧
    Measured ht pd.ob ∧ (pd.ht = some ht ∨ pd.ht = none ∧ ht = blankTable) := by
  obtain ⟨pd, hpd, ⟨hnone, hrefcnt, hob⟩ | ⟨ht, hht, hmeasured⟩⟩ := h
  · refine ⟨pd, _, blankTable, hpd, ownTable_fresh hnone hrefcnt, ?_, .inr ⟨hnone, rfl⟩⟩
    rw [hob]
    exact blank_measured
  · exact ⟨pd, na, ht, hpd, ownTable_some hht, hmeasured, .inl hht⟩

/-- A string on the obstack has the length that its key has. -/
theorem Measured.hasLength (h : Measured ht ob) {pd : Privdata} (hpd : na.privdata = some pd)
    (hob : pd.ob = ob) {e : Oash.TEntry} {de : Oash.DEntry ℕ} (hentry : Entry ht k e de)
    (hdata : de.data = some s) : HasLength na s k.bytes.length := by
  obtain ⟨str, hstr, hlen⟩ := h.len_eq k e de s hentry hdata
  exact ⟨pd, str, hpd, hob ▸ hstr, hlen⟩

/-- A new string of the right length keeps the lengths right. -/
theorem Measured.filled (h : Measured ht ob) {ht₁ ht₂ : Oash.Table ℕ} {j : ℕ}
    (hins : Oash.Inserted ht k (hashOf murmur3Hash k) none ht₁ j)
    (hgrow : (Oash.growIfNeeded ht₁).result = .ok ht₂) {str : Str}
    (hlen : str.len = k.bytes.length) :
    Measured (Nmalloc.filled ht₂ j k ob.length) (ob ++ [str]) where
  own := h.own.filled hins hgrow ob.length
  len_eq l e de s hentry hdata := by
    rcases (h.own.filled_entry_iff hins hgrow ob.length l e de).mp hentry with
      ⟨rfl, -, rfl⟩ | hold
    · obtain rfl := Option.some.inj hdata
      exact ⟨str, List.getElem?_concat_length, hlen⟩
    · obtain ⟨str', hstr', hlen'⟩ := h.len_eq l e de s hold hdata
      refine ⟨str', ?_, hlen'⟩
      rw [List.getElem?_append_left (List.getElem?_eq_some_iff.mp hstr').1, hstr']

/-- A string that is put into the own table was not met there. -/
theorem not_meets_of_inserted {ht₁ : Oash.Table ℕ} {j : ℕ}
    (hins : Oash.Inserted ht k (hashOf murmur3Hash k) none ht₁ j) :
    ¬Oash.PutMeets ht k (hashOf murmur3Hash k) := by
  intro hmeets
  obtain ⟨table', p, q, hput, -⟩ := hins.placed
  obtain ⟨s, e, de, -, -, hfound⟩ := Oash.putEntry_of_meets hmeets
  have hboth := congrArg Exec.result (hput.symm.trans (hfound [0]))
  cases congrArg (fun out => out.2.2) (Except.ok.inj hboth)

/-- A call that returns gives a string of the right length exactly if it fits, and then the lengths
stay right. -/
theorem AllMeasured.step (h : AllMeasured na)
    (hstep : (stringMachine murmur3Hash).step na r = .ok (na', s)) :
    (Measures murmur3Hash na r ↔ Fits murmur3Hash na r) ∧
      (Fits murmur3Hash na r → AllMeasured na') := by
  have hmeasures : Measures murmur3Hash na r ↔ HasLength na' s r.key.bytes.length := by
    refine ⟨fun hall => hall na' s hstep, fun hlen na'' s' hstep' => ?_⟩
    obtain ⟨rfl, rfl⟩ : na' = na'' ∧ s = s' := by simpa [hstep] using hstep'
    exact hlen
  obtain ⟨pd, na₁, ht, hpd, hown, hmeasured, hold⟩ := h.ownTable
  obtain ⟨hout, hmeets⟩ :=
    allocStr_outcome_meets murmur3Hash hpd hmeasured.own hown r.key r.max r.rest
  have hresult := hstep
  simp only [stringMachine, Request.run_eq] at hresult
  rw [hresult] at hout hmeets
  rw [hmeasures]
  cases hout with
  | @shared i s e de hat hhash hdata =>
    have hlen : HasLength (na₁.holding pd.ob ht) s r.key.bytes.length :=
      hmeasured.hasLength rfl rfl hat.entry hdata
    have hthere : OnObstack murmur3Hash na r := by
      rcases hold with hht | ⟨-, rfl⟩
      · exact ⟨pd, ht, hpd, hht, hmeets.resolve_right fun hne => hne s rfl⟩
      · exact absurd hat.entry not_entry_blank
    exact ⟨iff_of_true hlen (.inr (.inr hthere)), fun _ => ⟨_, rfl, .inr ⟨ht, rfl, hmeasured⟩⟩⟩
  | @stored ht₁ ht₂ j hins hgrow =>
    have hnew : ¬OnObstack murmur3Hash na r := by
      rintro ⟨pd', ht', hpd', hht', hmeets'⟩
      obtain rfl : pd = pd' := Option.some.inj (hpd.symm.trans hpd')
      rcases hold with hht | ⟨hnone, -⟩
      · obtain rfl : ht = ht' := Option.some.inj (hht.symm.trans hht')
        exact not_meets_of_inserted hins hmeets'
      · rw [hnone] at hht'
        cases hht'
    have hfits : Fits murmur3Hash na r ↔
        (newStr r.max r.key.bytes r.key.bytes.length).len = r.key.bytes.length := by
      rw [len_newStr_iff, Fits, or_iff_left hnew]
    have hlen : HasLength (na₁.holding (pd.ob ++ [newStr r.max r.key.bytes r.key.bytes.length])
          (filled ht₂ j r.key pd.ob.length)) pd.ob.length r.key.bytes.length ↔
        (newStr r.max r.key.bytes r.key.bytes.length).len = r.key.bytes.length := by
      constructor
      · rintro ⟨pd', str, hpd', hstr, hlen⟩
        obtain rfl := Option.some.inj hpd'
        obtain rfl := Option.some.inj (List.getElem?_concat_length.symm.trans hstr)
        exact hlen
      · intro hlen
        exact ⟨_, _, rfl, List.getElem?_concat_length, hlen⟩
    refine ⟨hlen.trans hfits.symm, fun hfit => ?_⟩
    exact ⟨_, rfl, .inr ⟨_, rfl, hmeasured.filled hins hgrow (hfits.mp hfit)⟩⟩

theorem allMeasured_of_start (hstart : (stringMachine murmur3Hash).start na) : AllMeasured na := by
  obtain ⟨pd, hpd, hkeeps⟩ := keeps_of_start hstart
  refine ⟨pd, hpd, ?_⟩
  rcases hkeeps with ⟨hnone, hrefcnt, hob, -⟩ | ⟨ht, hht, hbooks⟩
  · exact .inl ⟨hnone, hrefcnt, hob⟩
  · refine .inr ⟨ht, hht, hbooks.own, fun k e de s hentry _ => ?_⟩
    obtain ⟨q, hq, -⟩ := hbooks.stored k e de hentry
    exact absurd hq List.not_mem_nil

/-- All calls of a run return strings of the lengths that were asked for exactly if no string that
is too long for its width is put on the obstack. -/
theorem measures_iff (hstart : (stringMachine murmur3Hash).start na) {requests : List Request}
    {ss : List ℕ} (hrun : (stringMachine murmur3Hash).run na requests = .ok (na', ss)) :
    (stringMachine murmur3Hash).Obeys (Measures murmur3Hash) na requests ↔
      (stringMachine murmur3Hash).Obeys (Fits murmur3Hash) na requests :=
  Machine.obeys_iff_of_run (fun _ _ _ _ h hstep => (h.step hstep).1)
    (fun _ _ _ _ h hfits hstep => (h.step hstep).2 hfits) (allMeasured_of_start hstart) hrun

/-- A request for `n` times the letter `a`. -/
def requestA (max : Width) (n : ℕ) (hpos : 0 < n) (hshort : n < 65535) : Request :=
  ⟨max, ⟨List.replicate n 97, fun h => absurd (List.eq_of_mem_replicate h) (by decide),
    by rwa [List.length_replicate], by rwa [List.length_replicate]⟩, [0]⟩

theorem measures_iff_u : ∃ na' ss,
    (stringMachine Oash.murmur3Hash).run { flags := TN_ALLOC_OBSTACK, privdata := some {} }
      [requestU .uint8, requestU .uint8] = .ok (na', ss) ∧
    (stringMachine Oash.murmur3Hash).Obeys (Measures Oash.murmur3Hash)
      { flags := TN_ALLOC_OBSTACK, privdata := some {} } [requestU .uint8, requestU .uint8] := by
  obtain ⟨na', hrun⟩ : ∃ na', (stringMachine Oash.murmur3Hash).run
      { flags := TN_ALLOC_OBSTACK, privdata := some {} } [requestU .uint8, requestU .uint8] =
        .ok (na', [0, 0]) := ⟨_, rfl⟩
  refine ⟨na', [0, 0], hrun, (measures_iff ⟨2, rfl, rfl⟩ hrun).mpr ?_⟩
  have hfits : ∀ na, Fits Oash.murmur3Hash na (requestU .uint8) := fun na =>
    .inr (.inl (by decide))
  exact ⟨hfits _, fun na _ _ => ⟨hfits na, fun _ _ _ => trivial⟩⟩

/-- The length of a `tn_str8` of 256 bytes is 0. -/
theorem str8_length_wraps : ∃ na',
    (stringMachine Oash.murmur3Hash).start { flags := TN_ALLOC_OBSTACK, privdata := some {} } ∧
    (stringMachine Oash.murmur3Hash).step { flags := TN_ALLOC_OBSTACK, privdata := some {} }
      (requestA .uint8 256 (by decide) (by decide)) = .ok (na', 0) ∧
    HasLength na' 0 0 ∧ ¬HasLength na' 0 256 := by
  have hcall : ((stringMachine Oash.murmur3Hash).step
      { flags := TN_ALLOC_OBSTACK, privdata := some {} }
      (requestA .uint8 256 (by decide) (by decide))).map
        (fun p => (p.2, p.1.privdata.map fun pd => pd.ob.map Str.len)) = .ok (0, some [0]) := by
    decide +kernel
  obtain ⟨⟨na', s⟩, hstep, hret⟩ := Exec.map_result_ok.mp hcall
  obtain ⟨rfl, hob⟩ := Prod.mk.inj hret
  obtain ⟨pd, hpd, hlens⟩ := Option.map_eq_some_iff.mp hob
  obtain ⟨str, hstr, hlen⟩ := List.map_eq_singleton_iff.mp hlens
  have hget : pd.ob[0]? = some str := by rw [hstr]; rfl
  refine ⟨na', ⟨2, rfl, rfl⟩, hstep, ⟨pd, str, hpd, hget, hlen⟩, ?_⟩
  rintro ⟨pd', str', hpd', hstr', hlen'⟩
  obtain rfl := Option.some.inj (hpd.symm.trans hpd')
  obtain rfl := Option.some.inj (hget.symm.trans hstr')
  omega

end Trurl.Nmalloc
