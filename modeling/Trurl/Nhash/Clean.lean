import Trurl.Nhash.Step

/-!
# Emptying the table

`n_hash_clean` removes the key of the first bucket of each chain and then forgets the chain.
The buckets behind the first one are in no chain any more, but nobody has freed them.
-/

namespace Trurl.Nhash

open Lib
open Oash (u32 callFreeFn PowerCap)

variable {α : Type} {murmur3Hash : Bytes → UInt32} {ht ht' : Table α} {k : Key} {b : Bucket α}
  {s i n : ℕ} {l r gone removed : List (Bucket α)}

/-- What the removal of a bucket by `n_hash_clean` logs. -/
def cleanEvents (freeFn : Bool) (b : Bucket α) : List (Event α) :=
  .free b.origin b.key :: freed freeFn b.data

/-- The search for the key of a bucket, made when the slots below `i` are empty, comes to the
bucket itself, which is alone in its slot. -/
def Cleanable (murmur3Hash : Bytes → UInt32) (ht : Table α) (i : ℕ) : Prop :=
  ∀ j ≥ i, ∀ b ∈ ht.chain j, ht.chain j = [b] ∧ ∀ k, HasKey b k →
    ∃ before after, slotsOf murmur3Hash ht.size k = before ++ j :: after ∧
      ∀ t ∈ before, j ≤ t → ∀ x ∈ ht.chain t, ¬HasKey x k

/-- What `n_hash_clean` has made of a table after it was at the slots from `i` on: it has removed
some buckets and forgotten others. -/
structure Emptied (murmur3Hash : Bytes → UInt32) (ht : Table α) (i n : ℕ)
    (removed gone : List (Bucket α)) (ht' : Table α) : Prop where
  same : ht' = { ht with table := ht'.table, items := ht'.items }
  placed : Placed murmur3Hash ht'
  length : ht'.table.length = ht.table.length
  empty : ∀ t, (i ≤ t ∧ t < i + n) ∨ ht.chain t = [] → ht'.chain t = []
  perm : (removed ++ (gone ++ ht'.buckets)).Perm ht.buckets
  /-- Nothing was forgotten only if every search came to the bucket it started from. -/
  cleanable : i + n = ht.table.length → gone = [] → Cleanable murmur3Hash ht i

/-- The table with a chain forgotten. -/
def Table.forget (ht : Table α) (s : ℕ) : Table α := { ht with table := ht.table.set s [] }

theorem Table.chain_forget_self : (ht.forget s).chain s = [] := by
  by_cases hs : s < ht.table.length
  · exact Table.chain_set_self hs
  · rw [Table.chain, Table.forget, List.getD_eq_default]
    simpa using hs

theorem Table.chain_forget_ne {t : ℕ} (ht' : t ≠ s) : (ht.forget s).chain t = ht.chain t :=
  Table.chain_set_ne ht'

theorem Table.perm_forget (hs : s < ht.table.length) :
    (ht.chain s ++ (ht.forget s).buckets).Perm ht.buckets :=
  flatten_set_perm (Table.chain_eq hs) []

theorem Placed.forget (h : Placed murmur3Hash ht) (hs : s < ht.table.length) :
    Placed murmur3Hash (ht.forget s) where
  sized := h.sized.set s [] ht.items
  keyed x hx := h.keyed x ((Table.perm_forget hs).mem_iff.mp (List.mem_append_right _ hx))
  placed t x hx m hm := by
    by_cases ht' : t = s
    · rw [ht', Table.chain_forget_self] at hx
      exact absurd hx List.not_mem_nil
    · rw [Table.chain_forget_ne ht'] at hx
      exact h.placed t x hx m hm

/-- There are no chains behind the table. -/
theorem Table.chain_of_length_le (hs : ht.table.length ≤ s) : ht.chain s = [] := by
  rw [Table.chain, List.getD_eq_default _ _ hs]

/-- An empty slot does not keep the table from being cleaned. -/
theorem Cleanable.of_nil (hclean : Cleanable murmur3Hash ht (i + 1)) (hnil : ht.chain i = []) :
    Cleanable murmur3Hash ht i := by
  intro j hj b hb
  by_cases heq : j = i
  · rw [heq, hnil] at hb
    exact absurd hb List.not_mem_nil
  · exact hclean j (by omega) b hb

/-- A table can be cleaned from a slot on when the search for its bucket comes to it, the
bucket is alone, and the rest can be cleaned. -/
theorem Cleanable.of_single (hfinds : Finds murmur3Hash ht k i [] b [])
    (hclean : Cleanable murmur3Hash (ht.without i []) (i + 1)) : Cleanable murmur3Hash ht i := by
  have hother : ∀ t, t ≠ i → (ht.without i []).chain t = ht.chain t :=
    fun t hne => Table.chain_set_ne hne
  have hchain : ht.chain i = [b] := hfinds.chain
  intro j hj x hx
  by_cases heq : j = i
  · subst heq
    rw [hchain, List.mem_singleton] at hx
    subst hx
    refine ⟨hchain, ?_⟩
    intro k' hk'
    obtain rfl := hfinds.hasKey.unique hk'
    obtain ⟨before, after, hslots, hbefore⟩ := hfinds.slot
    exact ⟨before, after, hslots, fun t ht' _ => hbefore t ht'⟩
  · rw [← hother j heq] at hx
    obtain ⟨hsingle, hfirst⟩ := hclean j (by omega) x hx
    refine ⟨(hother j heq).symm.trans hsingle, ?_⟩
    intro k' hk'
    obtain ⟨before, after, hslots, hbefore⟩ := hfirst k' hk'
    refine ⟨before, after, hslots, ?_⟩
    intro t ht' hle
    rw [← hother t (by omega)]
    exact hbefore t ht' hle

/-- Without the buckets of a slot the rest can be cleaned as before. -/
theorem Cleanable.without (hclean : Cleanable murmur3Hash ht i) :
    Cleanable murmur3Hash (ht.without i []) (i + 1) := by
  have hother : ∀ t, t ≠ i → (ht.without i []).chain t = ht.chain t :=
    fun t hne => Table.chain_set_ne hne
  intro j hj x hx
  rw [hother j (by omega)] at hx ⊢
  obtain ⟨hsingle, hfirst⟩ := hclean j (by omega) x hx
  refine ⟨hsingle, ?_⟩
  intro k hk
  obtain ⟨before, after, hslots, hbefore⟩ := hfirst k hk
  refine ⟨before, after, hslots, ?_⟩
  intro t ht' hle y hy
  rw [hother t (by omega)] at hy
  exact hbefore t ht' hle y hy

/-- A removal that empties a slot has found its bucket there. -/
theorem Finds.single (hfinds : Finds murmur3Hash ht k s l b r) (hi : i < ht.table.length)
    {b₀ : Bucket α} {rest : List (Bucket α)} (hchain : ht.chain i = b₀ :: rest)
    (hnil : (ht.without s (l ++ r)).chain i = []) : s = i ∧ l = [] ∧ r = [] := by
  by_cases heq : i = s
  · subst heq
    rw [Table.without, Table.chain_set_self hi] at hnil
    exact ⟨rfl, List.append_eq_nil_iff.mp hnil⟩
  · rw [Table.without, Table.chain_set_ne heq, hchain] at hnil
    exact absurd hnil (by simp)

theorem Table.forget_without_self (c : List (Bucket α)) :
    (ht.without s c).forget s = ht.without s [] := by
  simp [Table.without, Table.forget]

theorem Table.chain_without_of_nil {t : ℕ}
    (hfinds : Finds murmur3Hash ht k s l b r) (hnil : ht.chain t = []) :
    (ht.without s (l ++ r)).chain t = [] := by
  by_cases ht' : t = s
  · rw [ht', hfinds.chain] at hnil
    exact absurd hnil (by simp)
  · rw [Table.without, Table.chain_set_ne ht', hnil]

/-- One round of the loop at a slot with a chain. -/
theorem cleanLoop_round (h : Placed murmur3Hash ht) {b₀ : Bucket α} {rest : List (Bucket α)}
    (hi : i < ht.table.length) (hchain : ht.chain i = b₀ :: rest)
    (hfinds : Finds murmur3Hash ht k s l b r) (hkey : HasKey b₀ k) (n : ℕ) :
    nHashCleanLoop murmur3Hash (n + 1) i ht =
      ⟨cleanEvents ht.freeFn b, .ok ((ht.without s (l ++ r)).forget i)⟩ >>=
        nHashCleanLoop murmur3Hash n (i + 1) := by
  have hremove := hfinds.remove h.toWellFormed
  rw [← hkey.1] at hremove
  rw [nHashCleanLoop, read_chain hi, Exec.pure_bind', hchain]
  simp only [hremove, callFreeFn_eq]
  simp only [Exec.bind_ok]
  rfl

/-- The loop of `n_hash_clean` empties every slot it comes to. -/
theorem cleanLoop_spec (h : Placed murmur3Hash ht) (hin : i + n ≤ ht.table.length) :
    ∃ removed gone ht', nHashCleanLoop murmur3Hash n i ht =
        ⟨removed.flatMap (cleanEvents ht.freeFn), .ok ht'⟩ ∧
      Emptied murmur3Hash ht i n removed gone ht' := by
  induction n generalizing ht i with
  | zero =>
    refine ⟨[], [], ht, rfl, rfl, h, rfl, ?_, List.Perm.refl _, ?_⟩
    · rintro t (ht' | ht')
      · omega
      · exact ht'
    · intro hall _ j hj b hb
      rw [Table.chain_of_length_le (by omega)] at hb
      exact absurd hb List.not_mem_nil
  | succ n ih =>
    have hi : i < ht.table.length := by omega
    rcases hchain : ht.chain i with _ | ⟨b₀, rest⟩
    · obtain ⟨removed, gone, ht', hrun, hempty⟩ := @ih ht (i + 1) h (by omega)
      refine ⟨removed, gone, ht', ?_, hempty.same, hempty.placed, hempty.length, ?_, hempty.perm,
        fun hall hgone => (hempty.cleanable (by omega) hgone).of_nil hchain⟩
      · rw [nHashCleanLoop, read_chain hi, Exec.pure_bind', hchain]
        exact hrun
      · rintro t (ht' | ht')
        · by_cases heq : t = i
          · exact hempty.empty t (.inr (heq ▸ hchain))
          · exact hempty.empty t (.inl (by omega))
        · exact hempty.empty t (.inr ht')
    · have hb₀ : b₀ ∈ ht.chain i := hchain ▸ List.mem_cons_self ..
      obtain ⟨k, hkey⟩ := h.keyed_chain i b₀ hb₀
      obtain ⟨s, l, b, r, hfinds⟩ := h.finds (mem_buckets_of_chain hb₀) hkey
      have hwithout := h.without hfinds
      have hlen : (ht.without s (l ++ r)).table.length = ht.table.length := by simp [Table.without]
      have hforget := hwithout.forget (hlen.symm ▸ hi : i < (ht.without s (l ++ r)).table.length)
      have hlen' : ((ht.without s (l ++ r)).forget i).table.length = ht.table.length := by
        simpa [Table.forget] using hlen
      obtain ⟨removed, gone, ht', hrun, hempty⟩ :=
        @ih ((ht.without s (l ++ r)).forget i) (i + 1) hforget (by omega)
      refine ⟨b :: removed, (ht.without s (l ++ r)).chain i ++ gone, ht', ?_, ?_⟩
      · rw [cleanLoop_round h hi hchain hfinds hkey, Exec.bind_ok, hrun, List.flatMap_cons]
        rfl
      · refine ⟨hempty.same, hempty.placed, hempty.length.trans hlen', ?_, ?_, ?_⟩
        · intro t ht'
          by_cases heq : t = i
          · exact hempty.empty t (.inr (heq ▸ Table.chain_forget_self))
          · rcases ht' with ht' | hnil
            · exact hempty.empty t (.inl (by omega))
            · refine hempty.empty t (.inr ?_)
              rw [Table.chain_forget_ne heq]
              exact Table.chain_without_of_nil hfinds hnil
        · have hout := hfinds.perm_without h.toWellFormed
          have hgone := Table.perm_forget (hlen.symm ▸ hi : i < (ht.without s (l ++ r)).table.length)
          have hstep : (removed ++ ((ht.without s (l ++ r)).chain i ++ (gone ++ ht'.buckets))).Perm
              (ht.without s (l ++ r)).buckets := by
            refine (List.perm_append_comm_assoc _ _ _).trans ?_
            exact (hempty.perm.append_left _).trans hgone
          rw [List.append_assoc, List.cons_append]
          exact (hstep.cons b).trans hout
        · intro hall hgone
          obtain ⟨hnil, hgone⟩ := List.append_eq_nil_iff.mp hgone
          have hclean := hempty.cleanable (by omega) hgone
          obtain ⟨rfl, rfl, rfl⟩ := hfinds.single hi hchain hnil
          rw [Table.forget_without_self] at hclean
          exact hclean.of_single hfinds

/-- The slot of a found bucket is the first one with the key. -/
theorem Finds.slot_eq (h : Finds murmur3Hash ht k s l b r) {before after : List ℕ} {j : ℕ}
    (hslots : slotsOf murmur3Hash ht.size k = before ++ j :: after)
    (hbefore : ∀ t ∈ before, ∀ x ∈ ht.chain t, ¬HasKey x k)
    (hhas : ∃ x ∈ ht.chain j, HasKey x k) : s = j := by
  obtain ⟨before', after', hslots', hbefore'⟩ := h.slot
  obtain ⟨x, hx, hk⟩ := hhas
  rw [hslots'] at hslots
  rcases List.append_eq_append_iff.mp hslots with ⟨mid, hmid, hrest⟩ | ⟨mid, hmid, hrest⟩
  · rcases mid with _ | ⟨t, mid⟩
    · exact (List.cons.inj hrest).1
    · obtain ⟨rfl, -⟩ := List.cons.inj hrest
      exact absurd h.hasKey (hbefore s (hmid ▸ List.mem_append_right _ (List.mem_cons_self ..)) b h.mem)
  · rcases mid with _ | ⟨t, mid⟩
    · exact (List.cons.inj hrest).1.symm
    · obtain ⟨rfl, -⟩ := List.cons.inj hrest
      exact absurd hk (hbefore' j (hmid ▸ List.mem_append_right _ (List.mem_cons_self ..)) x hx)

/-- In a table that can be cleaned the search for the first bucket of a slot finds it, and it is
alone there. -/
theorem Cleanable.finds (h : Placed murmur3Hash ht) (hbelow : ∀ t < i, ht.chain t = [])
    (hclean : Cleanable murmur3Hash ht i) {b₀ : Bucket α} (hb₀ : b₀ ∈ ht.chain i)
    (hkey : HasKey b₀ k) : Finds murmur3Hash ht k i [] b₀ [] := by
  obtain ⟨hsingle, hfirst⟩ := hclean i le_rfl b₀ hb₀
  obtain ⟨before, after, hslots, hbefore⟩ := hfirst k hkey
  obtain ⟨s, l, b, r, hfinds⟩ := h.finds (mem_buckets_of_chain hb₀) hkey
  have hmiss : ∀ t ∈ before, ∀ x ∈ ht.chain t, ¬HasKey x k := by
    intro t ht' x hx
    by_cases hlt : t < i
    · rw [hbelow t hlt] at hx
      exact absurd hx List.not_mem_nil
    · exact hbefore t ht' (by omega) x hx
  obtain rfl : s = i := hfinds.slot_eq hslots hmiss ⟨b₀, hb₀, hkey⟩
  -- the chain holds one bucket only, which is the one that was found
  have hone : l ++ b :: r = [b₀] := hfinds.chain.symm.trans hsingle
  obtain ⟨rfl, rfl, rfl⟩ : l = [] ∧ b = b₀ ∧ r = [] := by
    rcases l with _ | ⟨x, l⟩
    · simpa using hone
    · simp at hone
  exact hfinds

/-- When every search comes to the bucket it starts from, no bucket is forgotten. -/
theorem cleanLoop_frees_all (h : Placed murmur3Hash ht) (hin : i + n = ht.table.length)
    (hbelow : ∀ t < i, ht.chain t = []) (hclean : Cleanable murmur3Hash ht i) :
    ∃ (removed : List (Bucket α)) (ht' : Table α), nHashCleanLoop murmur3Hash n i ht =
        ⟨removed.flatMap (cleanEvents ht.freeFn), .ok ht'⟩ ∧
      ht' = { ht with table := ht'.table, items := ht'.items } ∧ removed.Perm ht.buckets ∧
      ht'.buckets = [] := by
  induction n generalizing ht i with
  | zero =>
    have hnone : ht.buckets = [] := by
      rw [List.eq_nil_iff_forall_not_mem]
      intro b hb
      obtain ⟨t, hlt, hmem⟩ := exists_chain_of_mem hb
      rw [hbelow t (by omega)] at hmem
      exact absurd hmem List.not_mem_nil
    exact ⟨[], ht, rfl, rfl, by rw [hnone], hnone⟩
  | succ n ih =>
    have hi : i < ht.table.length := by omega
    rcases hchain : ht.chain i with _ | ⟨b₀, rest⟩
    · have hbelow' : ∀ t < i + 1, ht.chain t = [] := by
        intro t hlt
        by_cases heq : t = i
        · rw [heq, hchain]
        · exact hbelow t (by omega)
      obtain ⟨removed, ht', hrun, hrest⟩ := @ih ht (i + 1) h (by omega) hbelow'
        fun j hj => hclean j (by omega)
      refine ⟨removed, ht', ?_, hrest⟩
      rw [nHashCleanLoop, read_chain hi, Exec.pure_bind', hchain]
      exact hrun
    · have hb₀ : b₀ ∈ ht.chain i := hchain ▸ List.mem_cons_self ..
      obtain ⟨k, hkey⟩ := h.keyed_chain i b₀ hb₀
      have hfinds := hclean.finds h hbelow hb₀ hkey
      have hround := cleanLoop_round h hi hchain hfinds hkey n
      rw [List.append_nil, Table.forget_without_self] at hround
      have hbelow' : ∀ t < i + 1, (ht.without i []).chain t = [] := by
        intro t hlt
        by_cases heq : t = i
        · rw [heq]
          exact Table.chain_set_self hi
        · rw [Table.without, Table.chain_set_ne heq]
          exact hbelow t (by omega)
      have hlen : (ht.without i []).table.length = ht.table.length := by
        simp [Table.without]
      have hplaced : Placed murmur3Hash (ht.without i []) := h.without hfinds
      obtain ⟨removed, ht', hrun, hsame, hperm, hnone⟩ :=
        ih hplaced (by omega) hbelow' hclean.without
      refine ⟨b₀ :: removed, ht', ?_, hsame, ?_, hnone⟩
      · rw [hround, Exec.bind_ok, hrun, List.flatMap_cons]
        rfl
      · exact (hperm.cons b₀).trans (hfinds.perm_without h.toWellFormed)

end Trurl.Nhash
