import Trurl.Oash.Keyed
import Trurl.Oash.Murmur
import Trurl.Oash.Restore

/-!
# Tables from another host

A table is stored in network order, which hosts of both byte orders write and read alike. The hashes
that are stored with it are not: `murmur3_hash` loads the bytes of a key in native order, and so the
host that restores a table may look for a key under another hash than the one it was stored with.
-/

namespace Trurl.Oash

open Lib

/-- The order in which a host keeps the bytes of a number in memory. -/
inductive ByteOrder where
  | little
  | big
  deriving DecidableEq

/-- The bytes of a number of `width` bytes in memory. -/
def ByteOrder.bytes : ByteOrder → ℕ → ℕ → Bytes
  | .little, width, v => (beBytes width v).reverse
  | .big, width, v => beBytes width v

/-- `*((uint32_t *)key)` at these bytes. -/
def ByteOrder.load32 : ByteOrder → UInt8 → UInt8 → UInt8 → UInt8 → UInt32
  | .little, a, b, c, d =>
    a.toUInt32 ||| (b.toUInt32 <<< 8) ||| (c.toUInt32 <<< 16) ||| (d.toUInt32 <<< 24)
  | .big, a, b, c, d =>
    d.toUInt32 ||| (c.toUInt32 <<< 8) ||| (b.toUInt32 <<< 16) ||| (a.toUInt32 <<< 24)

/-- The loops of `murmur3_hash` on a host of this byte order. -/
def murmur3LoopOn (order : ByteOrder) : Bytes → UInt32 → UInt32
  | a :: b :: c :: d :: rest, h =>
    let h := h ^^^ murmur32Scramble (order.load32 a b c d)
    let h := (h <<< 13) ||| (h >>> 19)
    murmur3LoopOn order rest (h * 5 + 0xe6546b64)
  | rest, h => h ^^^ murmur32Scramble (rest.foldr (fun b k => (k <<< 8) ||| b.toUInt32) 0)

/-- `murmur3_hash` on a host of this byte order. -/
def murmur3HashOn (order : ByteOrder) (key : Bytes) : UInt32 :=
  let len := UInt32.ofNat key.length
  let h := murmur3LoopOn order key (CDB_HASHSTART ^^^ len)
  let h := h ^^^ len
  let h := h ^^^ (h >>> 16)
  let h := h * 0x85ebca6b
  let h := h ^^^ (h >>> 13)
  let h := h * 0xc2b2ae35
  h ^^^ (h >>> 16)

/-- The tables built with the hashes of a host, by calls and duplication. -/
inductive Built {α : Type} (murmur3Hash : Bytes → UInt32) : Table α → Prop
  | new {size : ℕ} {freeFn : Bool} {ht : Table α} (hok : (nOashNew size freeFn).result = .ok ht) :
      Built murmur3Hash ht
  | op {ht ht' : Table α} {op : Op α} {reply : Reply α} (hbuilt : Built murmur3Hash ht)
      (hashes : op.Hashes murmur3Hash) (hok : (op.run murmur3Hash ht).result = .ok (ht', reply)) :
      Built murmur3Hash ht'
  | dup {ht h : Table α} {dupFn : Option (α → Option α)} (hbuilt : Built murmur3Hash ht)
      (hok : (nOashDup murmur3Hash ht dupFn).result = .ok h) : Built murmur3Hash h

/-- Lookups in `ht'` with one hash function answer like those in `ht` with the other. -/
def AnswersLike {α : Type} (murmur3Hash murmur3Hash' : Bytes → UInt32) (ht ht' : Table α) : Prop :=
  ∀ k : Key, nOashGet murmur3Hash' ht' k.cstr = nOashGet murmur3Hash ht k.cstr

/-- `j` slots behind the home `h` a lookup does not give up: the slot holds an entry that is at least
as far from its own home and, unless the slot is `h`, has a `psl`. -/
def Passes {α : Type} (ht : Table α) (h j : ℕ) : Prop :=
  ∃ e, ht.table[walk ht.cap h j]? = some e ∧ e.hash ≠ 0 ∧
    j ≤ dist ht.cap (e.home ht.cap) (walk ht.cap h j) ∧ (walk ht.cap h j ≠ h → e.psl ≠ 0)

/-- The slot holds an entry of the key with this hash. -/
def Holds {α : Type} (ht : Table α) (k : Key) (khash : UInt32) (s : ℕ) : Prop :=
  ∃ e de, KeyAt ht k s e de ∧ e.hash = khash

/-- The slot is the first one of the key, and no slot on the way to it ends a lookup. -/
structure Seen {α : Type} (ht : Table α) (k : Key) (khash : UInt32) (s : ℕ) : Prop where
  holds : Holds ht k khash s
  way : ∀ j ≤ dist ht.cap (tindex ht.cap khash.toNat) s, Passes ht (tindex ht.cap khash.toNat) j
  first : ∀ j < dist ht.cap (tindex ht.cap khash.toNat) s,
    ¬Holds ht k khash (walk ht.cap (tindex ht.cap khash.toNat) j)

/-- Another hash function gives the keys that are seen with a datum the hashes they have. -/
def AgreeOnSeen {α : Type} (murmur3Hash' : Bytes → UInt32) (ht : Table α) : Prop :=
  ∀ k s e de, KeyAt ht k s e de → Seen ht k e.hash s → de.data ≠ none →
    hashOf murmur3Hash' k = e.hash

variable {α : Type} {murmur3Hash murmur3Hash' : Bytes → UInt32} {order order' : ByteOrder}
  {storeFn : Option α → Bytes × Bool} {restoreFn : Bytes → Option α × Bytes} {ht : Table α} {k : Key}

/-! ## Numbers and hashes on both hosts -/

/-- One turn of the first loop. The equation that unfolding looks for compares the two hashes as
numbers. -/
theorem murmur3LoopOn_cons (order : ByteOrder) (a b c d : UInt8) (rest : Bytes) (h : UInt32) :
    murmur3LoopOn order (a :: b :: c :: d :: rest) h =
      (let h := h ^^^ murmur32Scramble (order.load32 a b c d)
      let h := (h <<< 13) ||| (h >>> 19)
      murmur3LoopOn order rest (h * 5 + 0xe6546b64)) := by
  delta murmur3LoopOn
  dsimp only

theorem murmur3Loop_cons (a b c d : UInt8) (rest : Bytes) (h : UInt32) :
    murmur3Loop (a :: b :: c :: d :: rest) h =
      (let h := h ^^^ murmur32Scramble (ByteOrder.load32 .little a b c d)
      let h := (h <<< 13) ||| (h >>> 19)
      murmur3Loop rest (h * 5 + 0xe6546b64)) := by
  delta murmur3Loop
  dsimp only [ByteOrder.load32]

theorem murmur3LoopOn_little : ∀ (key : Bytes) (h : UInt32),
    murmur3LoopOn .little key h = murmur3Loop key h
  | a :: b :: c :: d :: rest, h => by
    rw [murmur3LoopOn_cons, murmur3Loop_cons]
    exact murmur3LoopOn_little rest _
  | [], h => rfl
  | [a], h => rfl
  | [a, b], h => rfl
  | [a, b, c], h => rfl

/-- On a little-endian host this is the hash of the model. -/
theorem murmur3HashOn_little : murmur3HashOn .little = Oash.murmur3Hash := by
  funext key
  simp only [murmur3HashOn, Oash.murmur3Hash, murmur3LoopOn_little]

/-- Bytes that no load takes together are hashed alike on all hosts. -/
theorem murmur3HashOn_short {key : Bytes} (hshort : key.length < 4) (order order' : ByteOrder) :
    murmur3HashOn order key = murmur3HashOn order' key := by
  have hloop : ∀ h, murmur3LoopOn order key h = murmur3LoopOn order' key h := by
    intro h
    match key with
    | [] | [a] | [a, b] | [a, b, c] => rfl
    | a :: b :: c :: d :: rest =>
      simp only [List.length_cons] at hshort
      omega
  simp only [murmur3HashOn, hloop]

theorem hashOf_short (hshort : k.bytes.length < 4) (order order' : ByteOrder) :
    hashOf (murmur3HashOn order) k = hashOf (murmur3HashOn order') k := by
  rw [hashOf, hashOf, murmur3HashOn_short hshort order order']

/-! ## Tables built on a host -/

theorem Built.reachable (hbuilt : Built murmur3Hash ht) : Reachable murmur3Hash ht := by
  induction hbuilt with
  | new hok => exact .new hok
  | op _ _ hok ih => exact .op ih hok
  | dup _ hok ih => exact .dup ih hok

/-- The calls that build a table keep its hashes those of the keys. -/
theorem reached_hashed (hreached : (machine α murmur3Hash).Reached
    (fun _ op => op.Hashes murmur3Hash) ht) : ht.Invariant ∧ Hashed murmur3Hash ht := by
  refine hreached.invariant (P := fun ht => ht.Invariant ∧ Hashed murmur3Hash ht) ?_ ?_
  · intro ht hstart
    exact ⟨start_invariant hstart, fun k e de hentry => absurd hentry (not_entry_of_start hstart)⟩
  · intro ht op ht' _ hboth hashes hok
    have hstep := step_of_run hboth.1 hok
    exact ⟨hstep.invariant hboth.1, hstep.hashed hboth.1 hboth.2 hashes⟩

/-- A duplicate is made with the hashes of the original. -/
theorem Built.reached (hbuilt : Built murmur3Hash ht) :
    (machine α murmur3Hash).Reached (fun _ op => op.Hashes murmur3Hash) ht := by
  induction hbuilt with
  | new hok => exact .start ⟨_, _, hok⟩
  | op _ hashes hok ih => exact ih.step hashes hok
  | dup _ hok ih =>
    obtain ⟨hinv, hhashed⟩ := reached_hashed ih
    refine dup_reached hinv ?_ ?_ hok
    · intro h flags k khash data mode hput
      cases hput
    · intro e he
      obtain ⟨de, k, hde, hkey⟩ := hinv.wellFormed.refers e he
      refine ⟨de, k, hde, hkey, ?_⟩
      intro h data l khash data' mode hput
      obtain ⟨rfl, rfl, -⟩ : k = l ∧ e.hash = khash ∧ _ := by simpa [Op.put?] using hput
      exact .inr (hhashed k e de ⟨he, hde, hkey⟩)

/-! ## Lookups with another hash -/

/-- The hash in a slot is that of its key. -/
theorem Hashed.hash_eq (hhashed : Hashed murmur3Hash ht) {s : ℕ} {e : TEntry} {de : DEntry α}
    (hat : KeyAt ht k s e de) : e.hash = hashOf murmur3Hash k :=
  hhashed k { e with psl := 0 } de hat.entry

/-- Where the hashes of a key differ, the lookup with the other one finds nothing. -/
theorem get_of_hash_ne (h : ht.Consistent) (hhashed : Hashed murmur3Hash ht)
    (hne : hashOf murmur3Hash' k ≠ hashOf murmur3Hash k) :
    nOashGet murmur3Hash' ht k.cstr = ⟨[], .ok none⟩ := by
  obtain ⟨r, hget, hslot⟩ := getEntry_returns h k (hashOf murmur3Hash' k)
  have hnone : r = none := by
    cases r with
    | none => rfl
    | some s =>
      obtain ⟨e, de, hat, hhash⟩ := hslot s rfl
      exact absurd (hhash.symm.trans (hhashed.hash_eq hat)) hne
  rw [hnone] at hget
  simp only [nOashGet, Key.strlen_cstr, computeHash_cstr, Exec.pure_bind', hget, entryData,
    Exec.pure_def]

/-- Where they agree, the lookups are the same. -/
theorem get_of_hash_eq (heq : hashOf murmur3Hash' k = hashOf murmur3Hash k) :
    nOashGet murmur3Hash' ht k.cstr = nOashGet murmur3Hash ht k.cstr := by
  simp only [nOashGet, Key.strlen_cstr, computeHash_cstr, heq]

/-! ## The slots that lookups come to -/

/-- The slot is seen by a lookup that has come to the `i`-th slot behind the home. -/
def SeenFrom (ht : Table α) (k : Key) (khash : UInt32) (h i s : ℕ) : Prop :=
  ∃ m, i ≤ m ∧ m < ht.cap ∧ walk ht.cap h m = s ∧ Holds ht k khash s ∧
    (∀ j, i ≤ j → j ≤ m → Passes ht h j) ∧ ∀ j, i ≤ j → j < m → ¬Holds ht k khash (walk ht.cap h j)

theorem SeenFrom.passes {khash : UInt32} {h i s : ℕ} (hseen : SeenFrom ht k khash h i s) :
    Passes ht h i := by
  obtain ⟨m, him, -, -, -, hway, -⟩ := hseen
  exact hway i le_rfl him

/-- Where the key is, a lookup goes no further. -/
theorem seenFrom_iff_of_holds {khash : UInt32} {h i s : ℕ} (hi : i < ht.cap)
    (hpasses : Passes ht h i) (hholds : Holds ht k khash (walk ht.cap h i)) :
    SeenFrom ht k khash h i s ↔ walk ht.cap h i = s := by
  constructor
  · rintro ⟨m, him, -, rfl, -, -, hfirst⟩
    obtain rfl : i = m := by
      by_contra hne
      exact hfirst i le_rfl (by omega) hholds
    rfl
  · rintro rfl
    refine ⟨i, le_rfl, hi, rfl, hholds, fun j hij hji => ?_, fun j hij hji => by omega⟩
    rwa [Nat.le_antisymm hji hij]

/-- Past another entry it goes on. -/
theorem seenFrom_succ_iff {khash : UInt32} {h i s : ℕ} (hpasses : Passes ht h i)
    (hother : ¬Holds ht k khash (walk ht.cap h i)) :
    SeenFrom ht k khash h i s ↔ SeenFrom ht k khash h (i + 1) s := by
  constructor
  · rintro ⟨m, him, hm, hs, hholds, hway, hfirst⟩
    have hne : i ≠ m := by
      rintro rfl
      exact hother (hs ▸ hholds)
    exact ⟨m, by omega, hm, hs, hholds, fun j hij => hway j (by omega),
      fun j hij => hfirst j (by omega)⟩
  · rintro ⟨m, him, hm, hs, hholds, hway, hfirst⟩
    refine ⟨m, by omega, hm, hs, hholds, fun j hij hjm => ?_, fun j hij hjm => ?_⟩
    · rcases Nat.eq_or_lt_of_le hij with rfl | hlt
      · exact hpasses
      · exact hway j hlt hjm
    · rcases Nat.eq_or_lt_of_le hij with rfl | hlt
      · exact hother
      · exact hfirst j hlt hjm

/-- The loop of `ohash_get_entry` ends at the first slot of the key that it does not give up
before. -/
theorem getEntryLoop_some_iff (h : ht.Consistent) {khash : UInt32} {fuel i s : ℕ}
    (hfuel : i + fuel = ht.cap + 1) :
    (ohashGetEntryLoop ht k.cstr k.bytes.length khash fuel
      (walk ht.cap (tindex ht.cap khash.toNat) i) i).result = .ok (some s) ↔
    SeenFrom ht k khash (tindex ht.cap khash.toNat) i s := by
  have hhome := h.ring.tindex_lt khash.toNat
  generalize hh : tindex ht.cap khash.toNat = home at hhome ⊢
  induction fuel generalizing i with
  | zero =>
    refine iff_of_false (by simp [ohashGetEntryLoop]) ?_
    rintro ⟨m, him, hm, -⟩
    omega
  | succ fuel ih =>
    have hslot := walk_lt hhome (show i ≤ ht.cap by omega)
    obtain ⟨e, he⟩ : ∃ e, ht.table[walk ht.cap home i]? = some e :=
      ⟨_, List.getElem?_eq_getElem (lt_of_lt_of_eq hslot h.table_length.symm)⟩
    -- A slot that the lookup gives up at holds this entry.
    have hstops (hends : ¬(e.hash ≠ 0 ∧ i ≤ dist ht.cap (e.home ht.cap) (walk ht.cap home i) ∧
        (walk ht.cap home i ≠ home → e.psl ≠ 0))) : ¬SeenFrom ht k khash home i s := by
      intro hseen
      obtain ⟨e', he', hpasses⟩ := hseen.passes
      obtain rfl : e = e' := Option.some.inj (he.symm.trans he')
      exact hends hpasses
    by_cases h0 : e.hash = 0
    · rw [getEntryLoop_empty he h0]
      exact iff_of_false (by simp) (hstops fun hpasses => hpasses.1 h0)
    · obtain ⟨de, l, hat⟩ := h.keyAt he h0
      rw [getEntryLoop_occupied hat, hh]
      split_ifs with hfar hpsl hhit
      · exact iff_of_false (by simp) (hstops fun hpasses => absurd hpasses.2.1 (by omega))
      · exact iff_of_false (by simp) (hstops fun hpasses => hpasses.2.2 hpsl.1 hpsl.2)
      all_goals
        have hpasses : Passes ht home i :=
          ⟨e, he, h0, Nat.le_of_not_lt hfar, fun hne hzero => hpsl ⟨hne, hzero⟩⟩
        have hi : i < ht.cap :=
          (Nat.le_of_not_lt hfar).trans_lt (dist_lt (h.ring.home_lt e) hslot)
      · obtain ⟨hhash, rfl⟩ := hhit
        rw [seenFrom_iff_of_holds hi hpasses ⟨e, de, hat, hhash.symm⟩]
        simp
      · rw [h.ring.tindex_succ hslot, next_walk hhome hi, seenFrom_succ_iff hpasses]
        · exact ih (by omega)
        · rintro ⟨e', de', hat', hhash⟩
          obtain rfl : e = e' := Option.some.inj (hat.slot.symm.trans hat'.slot)
          exact hhit ⟨hhash.symm, hat'.key_eq hat⟩

/-- `ohash_get_entry` finds the slot at which the key is seen. -/
theorem getEntry_some_iff (h : ht.Consistent) {khash : UInt32} {s : ℕ} :
    (ohashGetEntry ht k.cstr k.bytes.length khash).result = .ok (some s) ↔ Seen ht k khash s := by
  have hhome := h.ring.tindex_lt khash.toNat
  have hloop := @getEntryLoop_some_iff α ht k h khash (ht.cap + 1) 0 s (Nat.zero_add _)
  rw [walk_zero hhome] at hloop
  rw [ohashGetEntry, hloop]
  constructor
  · rintro ⟨m, -, hm, rfl, hholds, hway, hfirst⟩
    have hdist := dist_walk hhome hm
    exact ⟨hholds, fun j hj => hway j (Nat.zero_le j) (hj.trans_eq hdist),
      fun j hj => hfirst j (Nat.zero_le j) (hj.trans_eq hdist)⟩
  · rintro ⟨⟨e, de, hat, hhash⟩, hway, hfirst⟩
    have hs := lt_of_lt_of_eq (List.getElem?_eq_some_iff.mp hat.slot).1 h.table_length
    exact ⟨_, Nat.zero_le _, dist_lt hhome hs, walk_dist hhome hs, ⟨e, de, hat, hhash⟩,
      fun j _ => hway j, fun j _ => hfirst j⟩

/-- The data that lookups return are those of the keys that are seen. -/
theorem get_some_iff (h : ht.Consistent) {d : α} :
    (nOashGet murmur3Hash ht k.cstr).result = .ok (some d) ↔
      ∃ s e de, KeyAt ht k s e de ∧ Seen ht k (hashOf murmur3Hash k) s ∧ de.data = some d := by
  obtain ⟨r, hget, hslot⟩ := getEntry_returns h k (hashOf murmur3Hash k)
  simp only [nOashGet, Key.strlen_cstr, computeHash_cstr, Exec.pure_bind', hget]
  have hseen (s : ℕ) : Seen ht k (hashOf murmur3Hash k) s ↔ r = some s := by
    rw [← getEntry_some_iff h, hget]
    simp
  cases r with
  | none =>
    refine iff_of_false (by simp [entryData]) ?_
    rintro ⟨s, e, de, -, hs, -⟩
    cases (hseen s).mp hs
  | some s =>
    obtain ⟨e, de, hat, -⟩ := hslot s rfl
    simp only [entryData, Exec.read_of_some hat.slot, Exec.pure_bind', Exec.read_of_some hat.cell,
      Exec.deref, Exec.pure_def, Except.ok.injEq]
    constructor
    · exact fun hd => ⟨s, e, de, hat, (hseen s).mpr rfl, hd⟩
    · rintro ⟨s', e', de', hat', hs', hd⟩
      obtain rfl := Option.some.inj ((hseen s').mp hs')
      obtain rfl := Option.some.inj (hat.slot.symm.trans hat'.slot)
      obtain rfl : de = de' := by simpa using hat.cell.symm.trans hat'.cell
      exact hd

/-! ## Answers on both hosts -/

/-- The same table answers alike for two hash functions exactly if the other one gives the keys that
are seen with a datum the hashes they have. -/
theorem answersLike_self_iff (h : ht.Consistent) (hhashed : Hashed murmur3Hash ht) :
    AnswersLike murmur3Hash murmur3Hash' ht ht ↔ AgreeOnSeen murmur3Hash' ht := by
  constructor
  · intro hlike k s e de hat hseen hdata
    obtain ⟨d, hd⟩ := Option.ne_none_iff_exists'.mp hdata
    have hhash := hhashed.hash_eq hat
    have hfound := (@get_some_iff α murmur3Hash ht k h d).mpr ⟨s, e, de, hat, hhash ▸ hseen, hd⟩
    by_contra hne
    rw [← hlike k, get_of_hash_ne h hhashed (hhash ▸ hne)] at hfound
    cases hfound
  · intro hagree k
    by_cases heq : hashOf murmur3Hash' k = hashOf murmur3Hash k
    · exact get_of_hash_eq heq
    · obtain ⟨d, hget⟩ := get_returns h murmur3Hash k
      cases d with
      | none => rw [hget, get_of_hash_ne h hhashed heq]
      | some d =>
        obtain ⟨s, e, de, hat, hseen, hd⟩ := (get_some_iff h).mp (congrArg Exec.result hget)
        have hhash := hhashed.hash_eq hat
        have hagreed := hagree k s e de hat (hhash ▸ hseen) (hd ▸ Option.some_ne_none d)
        exact absurd (hagreed.trans hhash) heq

/-- In a table of at most 65536 slots every stored key is seen. -/
theorem agreeOnSeen_iff (hbuilt : Built murmur3Hash ht) (hmax : ht.cap ≤ 65536) :
    AgreeOnSeen murmur3Hash' ht ↔
      ∀ k e de, Entry ht k e de → de.data ≠ none → hashOf murmur3Hash' k = e.hash := by
  have h := hbuilt.reachable.invariant.wellFormed.toConsistent
  have hhashed := (reached_hashed hbuilt.reached).2
  have hkeyed := (hbuilt.reachable.apart hmax).keyed hhashed
  constructor
  · intro hagree k e de hentry hdata
    obtain ⟨d, hd⟩ := Option.ne_none_iff_exists'.mp hdata
    have hfound : (nOashGet murmur3Hash ht k.cstr).result = .ok (some d) := by
      rw [(hkeyed.get_of_entry hentry).1, hd]
    obtain ⟨s, e', de', hat, hseen, hd'⟩ := (get_some_iff h).mp hfound
    have hhash := hhashed.hash_eq hat
    rw [hhashed k e de hentry, ← hhash]
    exact hagree k s e' de' hat (hhash ▸ hseen) (hd' ▸ Option.some_ne_none d)
  · intro hstored k s e de hat _ hdata
    exact hstored k { e with psl := 0 } de hat.entry hdata

/-- A table stored on one host and restored on another answers there as it did exactly if the other
host computes the stored hashes for the keys that are seen in it with a datum. -/
theorem restored_answers_iff (order order' : ByteOrder) (hbuilt : Built (murmur3HashOn order) ht)
    (hdata : ∀ (j : ℕ) (de : DEntry α), ht.data[j]? = some (some de) →
      Inverse storeFn restoreFn de.data)
    (hshort : ∀ s e de k, KeyAt ht k s e de → k.bytes.length < 512)
    (freeFn : Bool) (buf : Vector UInt8 512) (rest : Bytes) :
    ∃ stored log ht', nOashStore ht [] storeFn = ⟨[], .ok (stored, ht.size)⟩ ∧
      nOashRestore (stored ++ rest) restoreFn freeFn buf = ⟨log, .ok (some ht', rest)⟩ ∧
      (AnswersLike (murmur3HashOn order) (murmur3HashOn order') ht ht' ↔
        AgreeOnSeen (murmur3HashOn order') ht) := by
  obtain ⟨hinv, hhashed⟩ := reached_hashed hbuilt.reached
  have h := hinv.wellFormed
  obtain ⟨log, hrestore⟩ := @restore_fitting α storeFn restoreFn buf ht rest h hdata
    (h.keys_fit hshort) freeFn
  refine ⟨_, log, ht.restored freeFn, store_spec h hdata [], ?_, ?_⟩
  · rw [List.nil_append, List.append_assoc]
    exact hrestore
  · have hsame := (@restored_restores α (murmur3HashOn order') ht h freeFn).get_eq
    rw [← answersLike_self_iff h.toConsistent hhashed]
    simp only [AnswersLike, hsame]

/-- A run of such calls builds a table. -/
theorem Built.run {ht' : Table α} {ops : List (Op α)} {replies : List (Reply α)}
    (hbuilt : Built murmur3Hash ht) (hashes : ∀ op ∈ ops, op.Hashes murmur3Hash)
    (hok : (machine α murmur3Hash).run ht ops = .ok (ht', replies)) : Built murmur3Hash ht' := by
  induction ops generalizing ht replies with
  | nil =>
    obtain ⟨rfl, -⟩ : ht = ht' ∧ _ := by simpa [Machine.run] using hok
    exact hbuilt
  | cons op ops ih =>
    obtain ⟨ht₁, r, rs, hstep, hrest, -⟩ := Machine.run_cons_ok hok
    exact ih (hbuilt.op (hashes op (List.mem_cons_self ..)) hstep)
      (fun op' hop' => hashes op' (List.mem_cons_of_mem _ hop')) hrest

theorem hashes_insert (k : Key) (data : Option α) : (Op.insert k data).Hashes murmur3Hash := by
  intro l khash data' mode hput
  obtain ⟨-, rfl, -⟩ : k = l ∧ 0 = khash ∧ _ := by simpa [Op.put?] using hput
  exact .inl rfl

/-- The table with the key `u`. -/
def uTable : Table ℕ where
  cap := 4
  table := [{}, {}, { hash := 4149283026, klen := 1 }, {}]
  size := 1
  dcap := 4
  data := [some ⟨some 1, keyU.cstr, .heap⟩, none, none, none]
  dsize := 1
  freeFn := false

theorem uTable_built : Built (murmur3HashOn .little) uTable := by
  have hrun : (machine ℕ (murmur3HashOn .little)).run (.fresh 4 false) [.insert keyU (some 1)] =
      .ok (uTable, [.accepted true]) := by decide
  refine (@Built.new ℕ _ 4 _ _ rfl).run ?_ hrun
  intro op hop
  obtain rfl := List.mem_singleton.mp hop
  exact hashes_insert keyU (some 1)

theorem uTable_short : ∀ s e de k, KeyAt uTable k s e de → k.bytes.length < 4 := by
  intro s e de k hat
  have hall : ∀ e ∈ uTable.table, e.klen.toNat < 4 := by decide
  rw [← hat.key.2]
  exact hall e (List.mem_of_getElem? hat.slot)

/-- The table with `u` is read on a big-endian host as on the little-endian one that has stored
it. -/
theorem restored_answers_iff_u : ∃ stored log ht',
    nOashStore uTable [] storeByte = ⟨[], .ok (stored, 1)⟩ ∧
    nOashRestore (stored ++ []) restoreByte false (Vector.replicate 512 0) =
      ⟨log, .ok (some ht', [])⟩ ∧
    AnswersLike (murmur3HashOn .little) (murmur3HashOn .big) uTable ht' := by
  obtain ⟨stored, log, ht', hstore, hrestore, hiff⟩ := restored_answers_iff .little .big uTable_built
    (inverse_bytes (by simp [uTable]))
    (fun s e de k hat => (uTable_short s e de k hat).trans (by decide))
    false (Vector.replicate 512 0) []
  refine ⟨stored, log, ht', hstore, hrestore, hiff.mpr ?_⟩
  intro k s e de hat _ _
  rw [hashOf_short (uTable_short s e de k hat) .big .little]
  exact ((reached_hashed uTable_built.reached).2.hash_eq hat).symm

theorem collidingTable_built : Built (murmur3HashOn .little) collidingTable := by
  have hrun : (machine ℕ (murmur3HashOn .little)).run (.fresh 8 false)
      [.ctl TN_HASH_REHASH.toUInt32, .insert keyU (some 1), .insert keyAbbst (some 2),
        .insert keyAdxqo (some 3)] = .ok (collidingTable, List.replicate 4 (.accepted true)) := by
    decide
  refine (@Built.new ℕ _ 8 _ _ rfl).run ?_ hrun
  intro op hop
  rcases List.mem_cons.mp hop with rfl | hop
  · intro k khash data mode hput
    cases hput
  · simp only [List.mem_cons, List.not_mem_nil, or_false] at hop
    rcases hop with rfl | rfl | rfl <;> exact hashes_insert _ _

/-- `abbst` is found on the little-endian host that has stored the table and not on a big-endian
one. -/
theorem restored_lost_abbst : Built (murmur3HashOn .little) collidingTable ∧
    (∀ (j : ℕ) (de : DEntry ℕ), collidingTable.data[j]? = some (some de) →
      Inverse storeByte restoreByte de.data) ∧
    ∃ stored log ht', nOashStore collidingTable [] storeByte = ⟨[], .ok (stored, 3)⟩ ∧
      nOashRestore stored restoreByte false (Vector.replicate 512 0) =
        ⟨log, .ok (some ht', [])⟩ ∧
      nOashGet (murmur3HashOn .little) collidingTable keyAbbst.cstr = ⟨[], .ok (some 2)⟩ ∧
      nOashGet (murmur3HashOn .big) ht' keyAbbst.cstr = ⟨[], .ok none⟩ := by
  have hbuilt := collidingTable_built
  have h := hbuilt.reachable.invariant.wellFormed
  have hdata := @inverse_bytes collidingTable (by simp [collidingTable])
  obtain ⟨log, hrestore⟩ := @restore_fitting ℕ storeByte restoreByte (Vector.replicate 512 0)
    collidingTable [] h hdata (by decide) false
  rw [List.append_nil] at hrestore
  refine ⟨hbuilt, hdata, _, log, _, store_spec h hdata [], hrestore, by rfl, by rfl⟩

end Trurl.Oash
