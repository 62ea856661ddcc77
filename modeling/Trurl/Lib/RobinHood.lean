import Trurl.Lib.Cyclic

/-!
# Robin Hood layouts

An open-addressing table with linear probing is seen here only through its layout: which
slots of a ring are occupied, and at which slot each entry would like to live. In a
settled layout no entry is more than one step poorer than the entry before it, which is
what lets a search stop early. Placing an entry, letting it pass or push out another one
and shifting entries back all keep a layout settled.
-/

namespace Trurl.Lib

/-- For every slot the home of the entry stored there, `none` for an empty slot. -/
abbrev Layout := ℕ → Option ℕ

/-- An entry with home `h` may stand at slot `i`: it is at home, or the slot before holds
an entry that is at most one step richer. -/
def Follows (n : ℕ) (t : Layout) (h i : ℕ) : Prop :=
  i ≠ h → ∃ g, t (prev n i) = some g ∧ dist n h i ≤ dist n g (prev n i) + 1

/-- The Robin Hood invariant. -/
def Settled (n : ℕ) (t : Layout) : Prop :=
  ∀ i < n, ∀ h, t i = some h → Follows n t h i

/-- All homes are slots of the ring. -/
def Homed (n : ℕ) (t : Layout) : Prop :=
  ∀ i < n, ∀ h, t i = some h → h < n

variable {n h i z : ℕ} {t : Layout}

/-- Every entry may stand at its home. -/
theorem follows_home (n : ℕ) (t : Layout) (h : ℕ) : Follows n t h h :=
  fun hne => absurd rfl hne

/-- The chain behind an entry: every slot from its home on is occupied, and the entry
standing `j` steps behind is at most `j` steps richer. -/
theorem Follows.chain (hs : Settled n t) (hm : Homed n t) (hh : h < n) (hi : i < n)
    (hf : Follows n t h i) {j : ℕ} (hj : j < dist n h i) :
    ∃ g, t (walk n h j) = some g ∧ j ≤ dist n g (walk n h j) := by
  -- Counted backwards from `i`: the slot `m + 1` steps behind it.
  have hback : ∀ m, m < dist n h i → ∃ g, t (walk n h (dist n h i - 1 - m)) = some g ∧
      dist n h i - 1 - m ≤ dist n g (walk n h (dist n h i - 1 - m)) := by
    have hlt := dist_lt hh hi
    intro m
    induction m with
    | zero =>
      intro hpos
      have hne : i ≠ h := fun heq => by
        rw [heq, dist_self] at hpos
        omega
      obtain ⟨g, hg, hle⟩ := hf hne
      have hprev : walk n h (dist n h i - 1) = prev n i := by
        have hw := walk_dist hh hi
        unfold walk prev at *
        split_ifs at * <;> omega
      simp only [Nat.sub_zero, hprev]
      exact ⟨g, hg, by omega⟩
    | succ m ih =>
      intro hm'
      obtain ⟨g, hg, hle⟩ := ih (by omega)
      have hslot := walk_lt hh (show dist n h i - 1 - m ≤ n by omega)
      have hgn := hm _ hslot _ hg
      have hne : walk n h (dist n h i - 1 - m) ≠ g := fun heq => by
        rw [heq, dist_self] at hle
        omega
      obtain ⟨g', hg', hle'⟩ := hs _ hslot _ hg hne
      have hprev : prev n (walk n h (dist n h i - 1 - m)) = walk n h (dist n h i - 1 - (m + 1)) := by
        unfold walk prev
        split_ifs <;> omega
      rw [hprev] at hg' hle'
      exact ⟨g', hg', by omega⟩
  have hj' : dist n h i - 1 - (dist n h i - 1 - j) = j := by omega
  have := hback (dist n h i - 1 - j) (by omega)
  rwa [hj'] at this

/-- While the ring has an empty slot, an entry that follows its chain past an occupied
slot does not come back to its home. -/
theorem Follows.next_ne_home (hs : Settled n t) (hm : Homed n t) (hh : h < n) (hi : i < n)
    (hf : Follows n t h i) (hocc : t i ≠ none) (hz : z < n) (hempty : t z = none) :
    next n i ≠ h := by
  intro heq
  have hfull : dist n h i = n - 1 := dist_of_next_eq hi heq
  have hdz := dist_lt hh hz
  by_cases hzi : dist n h z < dist n h i
  · obtain ⟨g, hg, -⟩ := hf.chain hs hm hh hi hzi
    rw [walk_dist hh hz] at hg
    simp [hempty] at hg
  · have hdist : dist n h z = dist n h i := by omega
    have hzeq : z = i := by rw [← walk_dist hh hz, hdist, walk_dist hh hi]
    exact hocc (hzeq ▸ hempty)

/-- The distance of a carried entry grows by one when it passes an occupied slot. -/
theorem Follows.dist_next (hs : Settled n t) (hm : Homed n t) (hh : h < n) (hi : i < n)
    (hf : Follows n t h i) (hocc : t i ≠ none) (hz : z < n) (hempty : t z = none) :
    dist n h (next n i) = dist n h i + 1 :=
  Lib.dist_next hh hi (hf.next_ne_home hs hm hh hi hocc hz hempty)

/-- Writing an entry at a slot keeps a layout settled if the entry may stand there and the
entry in the next slot is not too poor for it. -/
theorem Settled.update (hn : 2 ≤ n) (hs : Settled n t) (hi : i < n) (hf : Follows n t h i)
    (hnext : ∀ g, t (next n i) = some g → next n i ≠ g →
      dist n g (next n i) ≤ dist n h i + 1) :
    Settled n (Function.update t i (some h)) := by
  intro k hk g hg hne
  by_cases hki : k = i
  · subst hki
    obtain rfl : h = g := by simpa using hg
    obtain ⟨g', hg', hle⟩ := hf hne
    exact ⟨g', by rwa [Function.update_of_ne (prev_ne hn)], hle⟩
  · rw [Function.update_of_ne hki] at hg
    by_cases hpk : prev n k = i
    · have hk' : next n i = k := by rw [← hpk, next_prev hk]
      refine ⟨h, by rw [hpk, Function.update_self], ?_⟩
      rw [hpk]
      have := hnext g (by rwa [hk']) (by rwa [hk'])
      rwa [hk'] at this
    · obtain ⟨g', hg', hle⟩ := hs k hk g hg hne
      exact ⟨g', by rwa [Function.update_of_ne hpk], hle⟩

/-- A carried entry comes to rest in an empty slot. -/
theorem Settled.place (hn : 2 ≤ n) (hs : Settled n t) (hi : i < n) (hf : Follows n t h i)
    (hempty : t i = none) : Settled n (Function.update t i (some h)) := by
  refine hs.update hn hi hf fun g hg hne => ?_
  obtain ⟨g', hg', -⟩ := hs _ (next_lt hi) g hg hne
  rw [prev_next hi, hempty] at hg'
  exact absurd hg' (by simp)

/-- A carried entry takes the slot of a richer one. -/
theorem Settled.swap {g : ℕ} (hn : 2 ≤ n) (hs : Settled n t) (hi : i < n)
    (hf : Follows n t h i) (hg : t i = some g) (hrich : dist n g i ≤ dist n h i) :
    Settled n (Function.update t i (some h)) := by
  refine hs.update hn hi hf fun g' hg' hne => ?_
  obtain ⟨g'', hg'', hle⟩ := hs _ (next_lt hi) g' hg' hne
  rw [prev_next hi] at hg'' hle
  obtain rfl : g = g'' := by simpa [hg] using hg''
  omega

/-- A carried entry that is not poorer than the one it meets goes on to the next slot. -/
theorem follows_pass {g : ℕ} (hi : i < n) (hg : t i = some g)
    (hrich : dist n h i ≤ dist n g i) (hstep : dist n h (next n i) = dist n h i + 1) :
    Follows n t h (next n i) := by
  intro _
  rw [prev_next hi]
  exact ⟨g, hg, by omega⟩

/-- The entry in the next slot, if it is away from home, may be moved one slot back; a
copy of it may stay where it was. -/
theorem Settled.shift {g : ℕ} (hn : 2 ≤ n) (hs : Settled n t) (hm : Homed n t) (hi : i < n)
    (hg : t (next n i) = some g) (hne : next n i ≠ g) :
    Settled n (Function.update t i (some g)) := by
  have hgn := hm _ (next_lt hi) _ hg
  have hstep := Lib.dist_next hgn hi hne
  obtain ⟨h, hh, hle⟩ := hs _ (next_lt hi) g hg hne
  rw [prev_next hi] at hh hle
  refine hs.update hn hi ?_ ?_
  · intro hig
    have hpos : dist n g i ≠ 0 := fun h0 => hig ((dist_eq_zero_iff hgn).mp h0)
    have hih : i ≠ h := fun heq => by
      rw [← heq, dist_self] at hle
      omega
    obtain ⟨g', hg', hle'⟩ := hs i hi h hh hih
    exact ⟨g', hg', by omega⟩
  · intro g' hg' _
    obtain rfl : g = g' := by simpa [hg] using hg'
    omega

/-- A slot may be emptied when the entry after it, if there is one, is at home. -/
theorem Settled.erase (hs : Settled n t)
    (hnext : ∀ g, t (next n i) = some g → next n i = g) :
    Settled n (Function.update t i none) := by
  intro k hk g hg hne
  have hki : k ≠ i := fun heq => by
    rw [heq, Function.update_self] at hg
    exact absurd hg (by simp)
  rw [Function.update_of_ne hki] at hg
  obtain ⟨g', hg', hle⟩ := hs k hk g hg hne
  have hpk : prev n k ≠ i := fun heq => by
    have hk' : next n i = k := by rw [← heq, next_prev hk]
    exact hne (by rw [← hk', hnext g (by rwa [hk'])])
  exact ⟨g', by rwa [Function.update_of_ne hpk], hle⟩

section Window

variable {m L : ℕ}

/-- No entry of a block behind an empty slot `z` has its home outside of the block. -/
theorem Settled.dist_lt_of_block (hs : Settled n t) (hm : Homed n t) (hz : z < n)
    (hempty : t z = none) {j : ℕ} (hj : j < n) (hpos : 0 < j) (hh : t (walk n z j) = some h) :
    dist n h (walk n z j) < j := by
  have hi := walk_lt hz (show j ≤ n by omega)
  have hhn := hm _ hi h hh
  by_contra hle
  obtain ⟨g, hg, -⟩ := (hs _ hi h hh).chain hs hm hhn hi
    (j := dist n h (walk n z j) - j) (by omega)
  have hback : walk n h (dist n h (walk n z j) - j) = z := by
    have hd := walk_dist hhn hi
    have hdlt := dist_lt hhn hi
    generalize dist n h (walk n z j) = d at *
    unfold walk at *
    split_ifs at * <;> omega
  rw [hback, hempty] at hg
  exact absurd hg (by simp)

/-- Displacements of a block grow by at most one from slot to slot. -/
theorem Settled.dist_le_of_block (hs : Settled n t) (hz : z < n) (hlt : m < n)
    (hocc : ∀ j, 0 < j → j ≤ m → t (walk n z j) ≠ none) {g : ℕ} (hg : t (walk n z m) = some g)
    {j : ℕ} (hpos : 0 < j) (hj : j ≤ m) (hh : t (walk n z j) = some h) :
    dist n g (walk n z m) ≤ dist n h (walk n z j) + (m - j) := by
  obtain ⟨k, hk⟩ : ∃ k, m = j + k := ⟨m - j, by omega⟩
  induction k generalizing j h with
  | zero =>
    obtain rfl : m = j := by omega
    obtain rfl : g = h := by simpa [hg] using hh
    omega
  | succ k ih =>
    obtain ⟨h', hh'⟩ := Option.ne_none_iff_exists'.mp (hocc (j + 1) (by omega) (by omega))
    have hlater := ih (by omega) (by omega) hh' (by omega)
    have hi := walk_lt hz (show j + 1 ≤ n by omega)
    have hstep : dist n h' (walk n z (j + 1)) ≤ dist n h (walk n z j) + 1 := by
      by_cases hhome : walk n z (j + 1) = h'
      · rw [hhome, dist_self]
        omega
      · obtain ⟨g', hg', hle⟩ := hs _ hi h' hh' hhome
        rw [← next_walk hz (by omega), prev_next (walk_lt hz (by omega))] at hg' hle
        obtain rfl : h = g' := by simpa [hh] using hg'
        rwa [next_walk hz (by omega)] at hle
    omega

/-- All homes of a block behind an empty slot lie at least the displacement of its last entry
before its end. -/
theorem Settled.home_window (hs : Settled n t) (hm : Homed n t) (hz : z < n) (hempty : t z = none)
    (hlt : m < n) (hocc : ∀ j, 0 < j → j ≤ m → t (walk n z j) ≠ none) {g : ℕ}
    (hg : t (walk n z m) = some g) {j : ℕ} (hpos : 0 < j) (hj : j ≤ m)
    (hh : t (walk n z j) = some h) :
    ∃ u, 0 < u ∧ u + dist n g (walk n z m) ≤ m ∧ walk n z u = h := by
  have hnear := hs.dist_lt_of_block hm hz hempty (by omega) hpos hh
  have hfar := hs.dist_le_of_block hz hlt hocc hg hpos hj hh
  refine ⟨j - dist n h (walk n z j), by omega, by omega, ?_⟩
  have hi := walk_lt hz (show j ≤ n by omega)
  have hhn := hm _ hi h hh
  have hd := walk_dist hhn hi
  generalize dist n h (walk n z j) = d at *
  unfold walk at *
  split_ifs at * <;> omega

/-- Behind every occupied slot there is a block up to it, if the ring has an empty slot. -/
theorem exists_block (hi : i < n) (hocc : t i ≠ none) (hz : z < n) (hempty : t z = none) :
    ∃ z' < n, ∃ d, 0 < d ∧ d < n ∧ t z' = none ∧ walk n z' d = i ∧
      ∀ j, 0 < j → j ≤ d → t (walk n z' j) ≠ none := by
  classical
  have hsome : ∃ d, d < n ∧ ∃ z' < n, t z' = none ∧ walk n z' d = i :=
    ⟨dist n z i, dist_lt hz hi, z, hz, hempty, walk_dist hz hi⟩
  obtain ⟨hd, z', hz', hempty', hwalk⟩ := Nat.find_spec hsome
  generalize hdef : Nat.find hsome = d at hd hwalk
  have hpos : 0 < d := by
    by_contra h0
    obtain rfl : d = 0 := by omega
    rw [walk_zero hz'] at hwalk
    exact hocc (hwalk ▸ hempty')
  refine ⟨z', hz', d, hpos, hd, hempty', hwalk, fun j hj hjd hnone => ?_⟩
  refine Nat.find_min hsome (m := d - j) (by omega) ⟨by omega, walk n z' j,
    walk_lt hz' (by omega), hnone, ?_⟩
  rw [walk_add hz' (by omega), ← hwalk]
  congr 1
  omega

end Window

end Trurl.Lib
