import Trurl.Oash.Truthful

/-!
# Growth keeps the probe lengths true

When the arrays are doubled all entries are put again. None of these puts meets a saturated
counter: it would end a block of the new table whose entries have their homes in a window
that is 65535 slots shorter than the block, and in the old table, where no entry was further
than 65535 slots from home, these entries had one slot too few.
-/

namespace Trurl.Oash

open Lib

variable {α : Type}

/-- The home in the old table follows from the home in the new one. -/
theorem PowerCap.home_mod {cap : ℕ} (h : PowerCap cap) (h' : PowerCap (cap * 2)) (e : TEntry) :
    e.home cap = e.home (cap * 2) % cap := by
  rw [TEntry.home, TEntry.home, h.tindex_eq, h'.tindex_eq, Nat.mod_mod_of_dvd _ (dvd_mul_right ..)]

/-- Entries that have their homes in a window stand in the slots of the window and the 65535
slots after it, so that they are no more than these. -/
theorem window_card_le {cap z D : ℕ} {table : List TEntry}
    (htrue : ∀ (i : ℕ) (e : TEntry), table[i]? = some e → e.hash ≠ 0 →
      e.psl.toNat = dist cap (e.home cap) i) (hcap : PowerCap cap) (hlen : table.length = cap)
    {J : Finset ℕ} {x : ℕ → TEntry}
    (hmem : ∀ j ∈ J, x j ∈ contents table) (hinj : Set.InjOn x J)
    (hhome : ∀ j ∈ J, ∃ u, 0 < u ∧ u + 65535 ≤ D ∧ (x j).home cap = (z + u) % cap) :
    J.card ≤ D := by
  have hslots : ∀ j ∈ J, ∃ s ∈ (Finset.Icc 1 D).image (fun t => (z + t) % cap),
      ∃ e, table[s]? = some e ∧ e.content = some (x j) := by
    intro j hj
    obtain ⟨s, p, hs, hocc, h0⟩ := exists_of_mem_contents (hmem j hj)
    obtain ⟨u, hpos, hu, hwindow⟩ := hhome j hj
    have hslt : s < cap := hlen ▸ (List.getElem?_eq_some_iff.mp hs).1
    have hhlt := hcap.home_lt (x j)
    have hp := p.toNat_lt
    have hpsl : p.toNat = dist cap ((x j).home cap) s := htrue s _ hs hocc
    refine ⟨s, Finset.mem_image.mpr ⟨u + p.toNat, Finset.mem_Icc.mpr ⟨by omega, by omega⟩, ?_⟩,
      _, hs, ?_⟩
    · have hwalk := walk_dist hhlt hslt
      rwa [← hpsl, walk_eq_mod hhlt (by rw [hpsl]; exact (dist_lt hhlt hslt).le), hwindow,
        Nat.mod_add_mod, Nat.add_assoc] at hwalk
    · rw [TEntry.content_of_occupied (by exact hocc), ← h0]
  choose! slot hslot entry hentry hcontent using hslots
  have hle := Finset.card_le_card_of_injOn slot hslot fun j hj j' hj' heq => by
    have hsame := hentry j hj
    rw [show slot j = slot j' from heq, hentry j' hj', Option.some.injEq] at hsame
    have hc := hcontent j hj
    rw [← hsame, hcontent j' hj', Option.some.injEq] at hc
    exact hinj hj hj' hc.symm
  have hcard := hle.trans Finset.card_image_le
  rwa [Nat.card_Icc, Nat.add_sub_cancel] at hcard

/-- A saturated counter ends a block of occupied slots that has the home of the put in it. -/
theorem Saturated.block {n h : ℕ} {table : List TEntry} (hsat : Saturated table h)
    (hlen : table.length = n) (hh : h < n) (hroom : (contents table).length < n) :
    ∃ z < n, ∃ d m g, 0 < d ∧ 65535 ≤ m ∧ d + m < n ∧ layout n table z = none ∧ walk n z d = h ∧
      (∀ j, 0 < j → j ≤ d + m → layout n table (walk n z j) ≠ none) ∧
      table[walk n z (d + m)]? = some g ∧ g.hash ≠ 0 ∧ g.psl = 65535 := by
  obtain ⟨m, hm, hlong, hocc, g, hg, hgpsl⟩ := hsat
  rw [hlen] at hm hocc hg
  have hlay : ∀ j ≤ m, layout n table (walk n h j) ≠ none := by
    intro j hj
    obtain ⟨e, he, hne⟩ := hocc j hj
    simp [layout_of_occupied he hne]
  obtain ⟨z₀, ez, hez, hvacant⟩ := exists_vacant (l := table) (by rwa [hlen])
  have hz₀ : z₀ < n := hlen ▸ (List.getElem?_eq_some_iff.mp hez).1
  obtain ⟨z, hz, d, hdpos, hd, hempty, hwalk, hblock⟩ := exists_block hh
    (by simpa [walk_zero hh] using hlay 0 (Nat.zero_le _)) hz₀
    (layout_of_empty hez (TEntry.content_eq_none_iff.mp hvacant))
  have hdm : d + m < n := by
    by_contra hge
    refine hlay (n - d) (by omega) ?_
    rw [← hwalk, walk_add hz (by omega), show d + (n - d) = n by omega, walk_turn]
    exact hempty
  have hshift : ∀ j ≤ m, walk n z (d + j) = walk n h j :=
    fun j hj => by rw [← hwalk, walk_add hz (by omega)]
  refine ⟨z, hz, d, m, g, hdpos, hlong, hdm, hempty, hwalk, fun j hj hjm => ?_,
    by rw [hshift m le_rfl, hg], ?_, hgpsl⟩
  · by_cases hjd : j ≤ d
    · exact hblock j hj hjd
    · rw [show j = d + (j - d) by omega, hshift _ (by omega)]
      exact hlay _ (by omega)
  · obtain ⟨g', hg', hne⟩ := hocc m le_rfl
    obtain rfl : g = g' := by simpa [hg] using hg'
    exact hne

/-- No put of the growth loop meets a saturated counter. -/
theorem not_saturated_of_growth {cap : ℕ} {table table' : List TEntry} {e : TEntry}
    (hcap : PowerCap cap) (hcap' : PowerCap (cap * 2)) (hlen : table.length = cap)
    (hlen' : table'.length = cap * 2) (htruth : Truthful cap table)
    (htruth' : Truthful (cap * 2) table')
    (hnodup : ({ e with psl := 0 } :: contents table').Nodup)
    (hsub : ∀ x ∈ { e with psl := 0 } :: contents table', x ∈ contents table) :
    ¬Saturated table' (e.home (cap * 2)) := by
  intro hsat
  have hb := hcap.bounds
  have hroom : (contents table').length < cap * 2 := by
    have hle := (List.subperm_of_subset hnodup hsub).length_le
    have hle' := contents_length_le table
    rw [List.length_cons] at hle
    omega
  obtain ⟨z, hz, d, m, g, hdpos, hlong, hdm, hempty, hwalk, hblock, hg, hgocc, hgpsl⟩ :=
    hsat.block hlen' (hcap'.home_lt e) hroom
  have hgdist : dist (cap * 2) (g.home (cap * 2)) (walk (cap * 2) z (d + m)) = 65535 := by
    rw [← htruth'.psl_eq _ g hg hgocc, hgpsl]
    rfl
  have hold : ∀ (x : TEntry) (u : ℕ), u ≤ cap * 2 → walk (cap * 2) z u = x.home (cap * 2) →
      x.home cap = (z + u) % cap := fun x u hu hx => by
    rw [hcap.home_mod hcap', ← hx, walk_eq_mod hz hu, Nat.mod_mod_of_dvd _ (dvd_mul_right ..)]
  -- The entry being put counts as number 0, the entries of the block follow.
  have hentries : ∀ j ∈ Finset.range (d + m + 1), ∃ x ∈ contents table,
      (j = 0 ∧ x = { e with psl := 0 } ∨ 0 < j ∧ x ∈ contents table' ∧
        ∃ e', table'[walk (cap * 2) z j]? = some e' ∧ e'.content = some x) ∧
      ∃ u, 0 < u ∧ u + 65535 ≤ d + m ∧ x.home cap = (z + u) % cap := by
    intro j hj
    have hjm : j ≤ d + m := by simpa [Nat.lt_succ_iff] using hj
    by_cases h0 : j = 0
    · exact ⟨_, hsub _ (List.mem_cons_self ..), .inl ⟨h0, rfl⟩, d, hdpos, by omega,
        hold _ d (by omega) hwalk⟩
    · have hpos : 0 < j := by omega
      obtain ⟨h, hh⟩ := Option.ne_none_iff_exists'.mp (hblock j hpos hjm)
      obtain ⟨e', he', hocc', rfl⟩ := exists_of_layout hh
      obtain ⟨u, hupos, hu, hwindow⟩ := htruth'.settled.home_window (layout_homed hcap' table') hz
        hempty hdm hblock (layout_of_occupied hg hgocc) hpos hjm hh
      rw [hgdist] at hu
      have hmem := mem_contents he' hocc'
      exact ⟨_, hsub _ (List.mem_cons_of_mem _ hmem),
        .inr ⟨hpos, hmem, e', he', TEntry.content_of_occupied hocc'⟩, u, hupos, hu,
        hold _ u (by omega) hwindow⟩
  have : Nonempty TEntry := ⟨{}⟩
  choose! x hmem htag hhome using hentries
  have hinj : Set.InjOn x (Finset.range (d + m + 1) : Set ℕ) := by
    intro j hj j' hj' heq
    have hfresh := (List.nodup_cons.mp hnodup).1
    have hjm : j < d + m + 1 := by simpa using hj
    have hjm' : j' < d + m + 1 := by simpa using hj'
    rcases htag j hj with ⟨h0, hxe⟩ | ⟨hpos, hmem, e', he', hc⟩ <;>
      rcases htag j' hj' with ⟨h0', hxe'⟩ | ⟨hpos', hmem', e'', he'', hc'⟩
    · omega
    · exact absurd (hxe ▸ heq ▸ hmem') hfresh
    · exact absurd (hxe' ▸ heq ▸ hmem) hfresh
    · exact walk_injective (by omega) (by omega)
        (eq_of_holds (List.nodup_cons.mp hnodup).2 he' he'' hc (heq ▸ hc'))
  have hcard := window_card_le htruth.psl_eq hcap hlen hmem hinj hhome
  rw [Finset.card_range] at hcard
  omega

/-- The loop of `ohash_rehash` fills the new table with true probe lengths. -/
theorem rehashLoop_truthful {cap : ℕ} {table oldtable : List TEntry} {ht ht' : Table α}
    (hok : (ohashRehashLoop oldtable ht).result = .ok ht') (hcap : PowerCap cap)
    (hcap' : PowerCap (cap * 2)) (hlen : table.length = cap) (htruth : Truthful cap table)
    (hcap_eq : ht.cap = cap * 2) (hlen' : ht.table.length = ht.cap)
    (href : Referring ht.table ht.data) (hold : Referring oldtable ht.data)
    (htruth' : Truthful ht.cap ht.table)
    (hnodup : (contents oldtable ++ contents ht.table).Nodup)
    (hsub : ∀ x ∈ contents oldtable ++ contents ht.table, x ∈ contents table) :
    ht'.cap = cap * 2 ∧ Truthful ht'.cap ht'.table := by
  induction oldtable generalizing ht with
  | nil =>
    obtain rfl : ht = ht' := Except.ok.inj hok
    exact ⟨hcap_eq, htruth'⟩
  | cons e oldtable ih =>
    unfold ohashRehashLoop at hok
    by_cases h0 : e.hash = 0
    · rw [contents_cons_empty h0] at hnodup hsub
      rw [Referring, contents_cons_empty h0] at hold
      rw [if_pos h0] at hok
      exact ih hok hcap_eq hlen' href hold htruth' hnodup hsub
    · rw [contents_cons_occupied h0] at hnodup hsub
      rw [Referring, contents_cons_occupied h0] at hold
      rw [if_neg h0] at hok
      -- The entry and the new table as it is.
      have hpair : (({ e with psl := 0 } :: contents ht.table).Sublist
          ({ e with psl := 0 } :: contents oldtable ++ contents ht.table)) :=
        (List.sublist_append_right ..).cons_cons _
      have hcount := (List.subperm_of_subset hnodup hsub).length_le
      have hle := contents_length_le table
      have hb := hcap.bounds
      simp only [List.cons_append, List.length_cons, List.length_append] at hcount
      have hroom : (contents ht.table).length < ht.cap := by omega
      obtain ⟨table', r, k, hput, hplaced⟩ :=
        putEntry_none (hcap_eq ▸ hcap') hlen' href hroom h0
      have hfree : ¬Saturated ht.table (tindex ht.cap e.hash.toNat) := by
        have hgrow := not_saturated_of_growth hcap hcap' hlen (hlen'.trans hcap_eq) htruth
          (hcap_eq ▸ htruth') (hnodup.sublist hpair) fun x hx => hsub x (hpair.subset hx)
        rwa [← hcap_eq] at hgrow
      have htruth'' := putEntry_truthful (hcap_eq ▸ hcap') hlen' htruth' hroom h0 hfree
        (by rw [hput])
      rw [hput, Exec.pure_bind'] at hok
      have hperm : (contents table').Perm ({ e with psl := 0 } :: contents ht.table) := hplaced.perm
      have hperm' : (contents oldtable ++ contents table').Perm
          ({ e with psl := 0 } :: contents oldtable ++ contents ht.table) :=
        (hperm.append_left _).trans List.perm_middle
      refine ih hok hcap_eq (hplaced.length.trans hlen') (fun e' he' => ?_)
        (fun e' he' => hold _ (List.mem_cons_of_mem _ he')) htruth'' (hperm'.nodup_iff.mpr hnodup)
        fun x hx => hsub x (hperm'.mem_iff.mp hx)
      rcases List.mem_cons.mp (hperm.mem_iff.mp he') with rfl | he'
      · exact hold _ (List.mem_cons_self ..)
      · exact href _ he'

theorem truthful_replicate {n : ℕ} (cap : ℕ) : Truthful cap (List.replicate n {}) := by
  have hnone : ∀ (i : ℕ) (e : TEntry), (List.replicate n ({} : TEntry))[i]? = some e → e.hash = 0 := by
    intro i e he
    obtain rfl := (List.mem_replicate.mp (List.mem_of_getElem? he)).2
    rfl
  refine ⟨fun i e he hocc => absurd (hnone i e he) hocc, fun i _ g hg => ?_⟩
  obtain ⟨e, he, hocc, -⟩ := exists_of_layout hg
  exact absurd (hnone i e he) hocc

/-- `ohash_rehash` keeps a table truthful. -/
theorem rehash_truthful {ht ht' : Table α} (h : ht.WellFormed) (hmax : ht.cap ≤ 2 ^ 30)
    (htruth : Truthful ht.cap ht.table) (hok : (ohashRehash ht).result = .ok ht') :
    Truthful ht'.cap ht'.table := by
  have hb := h.cap.bounds
  have hdouble : u32 (ht.cap * 2) = ht.cap * 2 := Nat.mod_eq_of_lt (by omega)
  simp only [ohashRehash, reallocData, h.dcap_eq, hdouble,
    Exec.check_pos (show 0 < ht.cap * 2 by omega), Exec.pure_bind', Exec.pure_def] at hok
  refine (rehashLoop_truthful hok h.cap (h.cap.double hmax) h.table_length htruth rfl (by simp)
    (fun e he => absurd he (by simp [contents_replicate])) (fun e he => ?_)
    (truthful_replicate _) (by simpa [contents_replicate] using h.nodup.of_map)
    (fun x hx => by simpa [contents_replicate] using hx)).2
  obtain ⟨de, hde⟩ := h.referring e he
  exact ⟨de, by rwa [List.getElem?_append_left (List.getElem?_eq_some_iff.mp hde).1]⟩

/-- Growth after an insertion keeps a table truthful. -/
theorem growIfNeeded_truthful {ht ht' : Table α} (h : ht.WellFormed)
    (htruth : Truthful ht.cap ht.table) (hok : (growIfNeeded ht).result = .ok ht') :
    Truthful ht'.cap ht'.table := by
  rcases growIfNeeded_cases h with ⟨-, hgrow⟩ | ⟨-, hmax, table', hrehash, hgrow, -⟩ | ⟨-, -, hgrow⟩
  · obtain rfl : ht = ht' := by simpa [hgrow] using hok
    exact htruth
  · rw [hgrow, ← hrehash] at hok
    exact rehash_truthful h hmax htruth hok
  · exact absurd hok (by simp [hgrow])

end Trurl.Oash
