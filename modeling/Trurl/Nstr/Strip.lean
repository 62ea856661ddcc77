import Trurl.CString
import Trurl.Lib.Exec

/-!
# Stripping white space

`n_str_strip_ws` looks for the first character that is no white space and then goes backward from
the terminator. The backward scan stops at the place where the forward scan has stopped, which it
never comes to if that place is the terminator itself.
-/

namespace Trurl.Nstr

open Lib

/-- An access to a character. -/
inductive Access where
  | load (p : ℤ)
  | store (p : ℤ)
  deriving DecidableEq

/-- The pointer of an access. -/
def Access.pointer : Access → ℤ
  | .load p => p
  | .store p => p

/-- A call that logs its accesses to the memory. -/
abbrev MemCall (ρ : Type) := Exec Access ρ

/-- `*p`. A pointer is a place in the memory. -/
def loadChar (mem : Bytes) (p : ℤ) : MemCall UInt8 := do
  Exec.emit (.load p)
  if 0 ≤ p then Exec.read mem p.toNat else Exec.fail .bounds

/-- `*p = c`. -/
def storeChar (mem : Bytes) (p : ℤ) (c : UInt8) : MemCall Bytes := do
  Exec.emit (.store p)
  if 0 ≤ p then Exec.write mem p.toNat c else Exec.fail .bounds

/-- The first loop of `n_str_strip_ws`. What `isspace` accepts depends on the locale. -/
def skipWs (isspace : UInt8 → Bool) (mem : Bytes) : ℕ → ℤ → MemCall ℤ
  | 0, _ => Exec.fail .endless
  | fuel + 1, p => do
    let c ← loadChar mem p
    if isspace c then
      skipWs isspace mem fuel (p + 1)
    else
      pure p

/-- `strchr` with a pointer: the first place with the character, `none` for `NULL`. -/
def strchrPtr (mem : Bytes) (c : UInt8) : ℕ → ℤ → MemCall (Option ℤ)
  | 0, _ => Exec.fail .endless
  | fuel + 1, p => do
    let d ← loadChar mem p
    if d = c then
      pure (some p)
    else if d = 0 then
      pure none
    else
      strchrPtr mem c fuel (p + 1)

/-- The second loop of `n_str_strip_ws`. -/
def clearWs (isspace : UInt8 → Bool) (str : ℤ) : ℕ → Bytes → ℤ → MemCall Bytes
  | 0, _, _ => Exec.fail .endless
  | fuel + 1, mem, p =>
    if p ≠ str then do
      let c ← loadChar mem p
      if isspace c then
        let mem ← storeChar mem p 0
        clearWs isspace str fuel mem (p - 1)
      else
        pure mem
    else
      pure mem

/-- `n_str_strip_ws`: the memory and the returned pointer. -/
def nStrStripWs (isspace : UInt8 → Bool) (mem : Bytes) (str : Option ℤ) :
    MemCall (Bytes × Option ℤ) :=
  match str with
  | none => pure (mem, none)
  | some str => do
    let str ← skipWs isspace mem (mem.length + 1) str
    match ← strchrPtr mem 0 (mem.length + 1) str with
    | none => Exec.fail .assertion
    | some p =>
      let mem ← clearWs isspace str (mem.length + 1) mem (p - 1)
      pure (mem, some str)

/-- `isspace` of the C locale. -/
def isspaceC (c : UInt8) : Bool := c = 32 || (9 ≤ c && c ≤ 13)

/-- The bytes of a string without its leading and trailing white space. -/
def stripped (isspace : UInt8 → Bool) (s : Bytes) : Bytes :=
  (s.dropWhile isspace).rdropWhile isspace

/-- The string at a place of the memory. -/
def stringAt (mem : Bytes) (p : ℕ) : Bytes := (mem.drop p).takeWhile (· ≠ 0)

/-- The call for the string `s` behind other memory returns a place of the string at which it is
stripped, leaves the other memory alone and touches only bytes of the string. -/
def StripsWell (isspace : UInt8 → Bool) (before s after : Bytes) : Prop :=
  ∃ s' p, (nStrStripWs isspace (before ++ (s ++ 0 :: after)) (some before.length)).result =
      .ok (before ++ (s' ++ 0 :: after), some (before.length + p : ℕ)) ∧
    s'.length = s.length ∧ p ≤ s.length ∧
    stringAt (before ++ (s' ++ 0 :: after)) (before.length + p) = stripped isspace s ∧
    ∀ a ∈ (nStrStripWs isspace (before ++ (s ++ 0 :: after)) (some before.length)).log,
      (before.length : ℤ) ≤ a.pointer ∧ a.pointer ≤ before.length + s.length

variable {isspace : UInt8 → Bool} {mem before after s front lead trail rest : Bytes} {c d : UInt8}
  {fuel i : ℕ} {p str : ℤ} {ρ : Type}

/-! ## Single accesses -/

theorem loadChar_of_some (h : mem[i]? = some c) : loadChar mem i = ⟨[.load i], .ok c⟩ := by
  have hle : (0 : ℤ) ≤ i := Int.natCast_nonneg i
  rw [loadChar, if_pos hle, Int.toNat_natCast, Exec.read_of_some h]
  rfl

theorem storeChar_of_lt (h : i < mem.length) (c : UInt8) :
    storeChar mem i c = ⟨[.store i], .ok (mem.set i c)⟩ := by
  have hle : (0 : ℤ) ≤ i := Int.natCast_nonneg i
  rw [storeChar, if_pos hle, Int.toNat_natCast, Exec.write_of_lt h]
  rfl

/-- An access is logged whatever becomes of it. -/
theorem load_mem_log (f : UInt8 → MemCall ρ) : Access.load p ∈ (loadChar mem p >>= f).log := by
  rw [loadChar, bind_assoc]
  exact Exec.mem_log_bind _ (List.mem_singleton_self _)

/-- The access is to one of the places from `i` to `i + n`. -/
def Access.Within (i n : ℕ) (a : Access) : Prop := (i : ℤ) ≤ a.pointer ∧ a.pointer ≤ i + n

/-! ## Scanning forward -/

/-- The first loop stops at the first character that is no white space. -/
theorem skipWs_spec (hlead : ∀ c ∈ lead, isspace c = true) (hd : isspace d = false)
    (hfuel : lead.length < fuel) :
    ∃ log, skipWs isspace (before ++ (lead ++ d :: rest)) fuel before.length =
        ⟨log, .ok (before.length + lead.length : ℕ)⟩ ∧
      ∀ a ∈ log, a.Within before.length lead.length := by
  induction lead generalizing before fuel with
  | nil =>
    obtain ⟨fuel, rfl⟩ : ∃ k, fuel = k + 1 := ⟨fuel - 1, by omega⟩
    have hat : (before ++ ([] ++ d :: rest))[before.length]? = some d := by simp
    refine ⟨[.load before.length], ?_, ?_⟩
    · rw [skipWs, loadChar_of_some hat]
      simp [hd]
    · intro a ha
      obtain rfl := List.mem_singleton.mp ha
      exact ⟨le_rfl, by simp [Access.pointer]⟩
  | cons x lead ih =>
    obtain ⟨fuel, rfl⟩ : ∃ k, fuel = k + 1 := ⟨fuel - 1, by omega⟩
    rw [List.length_cons] at hfuel
    have hat : (before ++ (x :: lead ++ d :: rest))[before.length]? = some x := by simp
    have hx : isspace x = true := hlead x (List.mem_cons_self ..)
    obtain ⟨log, hrun, hwithin⟩ := @ih (before ++ [x]) fuel
      (fun c hc => hlead c (List.mem_cons_of_mem _ hc)) (by omega)
    rw [List.length_append, List.length_singleton, List.append_assoc, List.singleton_append,
      Nat.add_assoc, Nat.add_comm 1] at hrun
    refine ⟨.load before.length :: log, ?_, ?_⟩
    · rw [skipWs, loadChar_of_some hat]
      simp only [Exec.bind_ok, hx, if_true]
      exact congrArg (fun call => (⟨_ :: call.log, call.result⟩ : MemCall ℤ)) hrun
    · intro a ha
      rw [List.length_cons]
      rcases List.mem_cons.mp ha with rfl | ha
      · exact ⟨le_rfl, by simp only [Access.pointer]; omega⟩
      · obtain ⟨hlow, hhigh⟩ := hwithin a ha
        rw [List.length_append, List.length_singleton] at hlow hhigh
        exact ⟨by omega, by omega⟩

/-- Looking for the terminator is a scan over the other characters. -/
theorem strchrPtr_nul (mem : Bytes) (fuel : ℕ) (p : ℤ) :
    strchrPtr mem 0 fuel p = skipWs (fun c => c ≠ 0) mem fuel p >>= fun q => pure (some q) := by
  induction fuel generalizing p with
  | zero => rfl
  | succ fuel ih =>
    rw [strchrPtr, skipWs, bind_assoc]
    apply bind_congr
    intro c
    by_cases hc : c = 0
    · simp [hc]
    · simp [hc, ih]

theorem strchrPtr_spec (hnul : 0 ∉ s) (hfuel : s.length < fuel) :
    ∃ log, strchrPtr (before ++ (s ++ 0 :: after)) 0 fuel before.length =
        ⟨log, .ok (some (before.length + s.length : ℕ))⟩ ∧
      ∀ a ∈ log, a.Within before.length s.length := by
  have hother : ∀ c ∈ s, decide (c ≠ 0) = true := by
    intro c hc
    have hne : c ≠ 0 := fun h0 => hnul (h0 ▸ hc)
    exact decide_eq_true hne
  obtain ⟨log, hrun, hwithin⟩ := @skipWs_spec (fun c => decide (c ≠ 0)) before s after 0 fuel
    hother (by decide) hfuel
  refine ⟨log, ?_, hwithin⟩
  rw [strchrPtr_nul, hrun, Exec.bind_ok, Exec.pure_def, List.append_nil]

/-! ## Clearing backward -/

/-- The second loop clears white space and goes on in front of it. -/
theorem clearWs_ws (hd : isspace d = true) (hgoes : (front.length : ℤ) ≠ str) :
    clearWs isspace str (fuel + 1) (front ++ d :: rest) front.length =
      ⟨.load front.length :: .store front.length ::
          (clearWs isspace str fuel (front ++ 0 :: rest) (front.length - 1)).log,
        (clearWs isspace str fuel (front ++ 0 :: rest) (front.length - 1)).result⟩ := by
  have hat : (front ++ d :: rest)[front.length]? = some d := by simp
  rw [clearWs, if_pos hgoes, loadChar_of_some hat]
  simp only [Exec.bind_ok, hd, if_true]
  rw [storeChar_of_lt (List.getElem?_eq_some_iff.mp hat).1, Exec.bind_ok,
    List.set_append_right _ _ le_rfl, Nat.sub_self, List.set_cons_zero]
  rfl

/-- Behind a character that is no white space all white space is cleared. -/
theorem clearWs_spec (hd : isspace d = false) (htrail : ∀ c ∈ trail, isspace c = true)
    (hstr : str ≤ front.length) (hfuel : trail.length < fuel) :
    ∃ log, clearWs isspace str fuel (front ++ (d :: (trail ++ rest)))
        (front.length + trail.length : ℕ) =
        ⟨log, .ok (front ++ (d :: (List.replicate trail.length 0 ++ rest)))⟩ ∧
      ∀ a ∈ log, a.Within front.length trail.length := by
  induction trail using List.reverseRecOn generalizing rest fuel with
  | nil =>
    obtain ⟨fuel, rfl⟩ : ∃ k, fuel = k + 1 := ⟨fuel - 1, by omega⟩
    have hat : (front ++ (d :: ([] ++ rest)))[front.length]? = some d := by simp
    simp only [List.length_nil, Nat.add_zero]
    rw [clearWs]
    by_cases hstop : (front.length : ℤ) = str
    · rw [if_neg (not_not.mpr hstop)]
      exact ⟨[], rfl, fun a ha => absurd ha List.not_mem_nil⟩
    · rw [if_pos hstop, loadChar_of_some hat]
      refine ⟨[.load front.length], by simp [hd], ?_⟩
      intro a ha
      obtain rfl := List.mem_singleton.mp ha
      exact ⟨le_rfl, by simp [Access.pointer]⟩
  | append_singleton trail x ih =>
    obtain ⟨fuel, rfl⟩ : ∃ k, fuel = k + 1 := ⟨fuel - 1, by omega⟩
    rw [List.length_append, List.length_singleton] at hfuel
    have hx : isspace x = true := htrail x (by simp)
    have hmem : front ++ (d :: (trail ++ [x] ++ rest)) = (front ++ d :: trail) ++ x :: rest := by simp
    have hplace : front.length + (trail.length + 1) = (front ++ d :: trail).length := by simp
    have hgoes : ((front ++ d :: trail).length : ℤ) ≠ str := by omega
    have hback : (((front ++ d :: trail).length : ℕ) : ℤ) - 1 = (front.length + trail.length : ℕ) := by
      omega
    obtain ⟨log, hrun, hwithin⟩ := @ih (0 :: rest) fuel (fun c hc => htrail c (by simp [hc]))
      (by omega)
    rw [← List.cons_append, ← List.append_assoc] at hrun
    refine ⟨.load (front.length + (trail.length + 1) : ℕ) ::
      .store (front.length + (trail.length + 1) : ℕ) :: log, ?_, ?_⟩
    · rw [List.length_append, List.length_singleton, hplace, hmem, clearWs_ws hx hgoes, hback, hrun]
      simp [List.replicate_succ']
    · intro a ha
      rw [List.length_append, List.length_singleton]
      rcases List.mem_cons.mp ha with rfl | ha
      · exact ⟨by simp only [Access.pointer]; omega, by simp only [Access.pointer]; omega⟩
      · rcases List.mem_cons.mp ha with rfl | ha
        · exact ⟨by simp only [Access.pointer]; omega, by simp only [Access.pointer]; omega⟩
        · obtain ⟨hlow, hhigh⟩ := hwithin a ha
          exact ⟨hlow, by omega⟩

/-- In front of the place where it would stop the second loop goes on through all white space, to
the character before it. -/
theorem clearWs_runs_over (hs : ∀ c ∈ s, isspace c = true)
    (hstr : (before.length + s.length : ℕ) ≤ str) (hfuel : s.length < fuel) :
    Access.load ((before.length : ℤ) - 1) ∈
      (clearWs isspace str fuel (before ++ (s ++ rest)) ((before.length + s.length : ℕ) - 1)).log := by
  induction s using List.reverseRecOn generalizing rest fuel with
  | nil =>
    obtain ⟨fuel, rfl⟩ : ∃ k, fuel = k + 1 := ⟨fuel - 1, by omega⟩
    simp only [List.length_nil, Nat.add_zero] at hstr ⊢
    have hgoes : ((before.length : ℕ) : ℤ) - 1 ≠ str := by omega
    rw [clearWs, if_pos hgoes]
    exact load_mem_log _
  | append_singleton s x ih =>
    obtain ⟨fuel, rfl⟩ : ∃ k, fuel = k + 1 := ⟨fuel - 1, by omega⟩
    rw [List.length_append, List.length_singleton] at hstr hfuel ⊢
    have hx : isspace x = true := hs x (by simp)
    have hmem : before ++ (s ++ [x] ++ rest) = (before ++ s) ++ x :: rest := by simp
    have hplace : ((before.length + (s.length + 1) : ℕ) : ℤ) - 1 = (before ++ s).length := by
      rw [List.length_append]
      omega
    have hgoes : ((before ++ s).length : ℤ) ≠ str := by omega
    have hback := @ih (0 :: rest) fuel (fun c hc => hs c (by simp [hc])) (by omega) (by omega)
    rw [← List.append_assoc, ← List.length_append] at hback
    rw [hplace, hmem, clearWs_ws hx hgoes]
    exact List.mem_cons_of_mem _ (List.mem_cons_of_mem _ hback)

/-! ## Both scans -/

/-- A string with some other character is white space around a part that begins and ends with one. -/
theorem exists_core (hs : ∃ c ∈ s, isspace c = false) :
    ∃ lead core d trail, s = lead ++ (core ++ d :: trail) ∧
      (∀ c ∈ lead, isspace c = true) ∧ (∀ c ∈ trail, isspace c = true) ∧ isspace d = false ∧
      (∃ x rest, core ++ d :: trail = x :: rest ∧ isspace x = false) ∧
      stripped isspace s = core ++ [d] := by
  obtain ⟨c, hc, hcs⟩ := hs
  have htail : s.dropWhile isspace ≠ [] := by
    intro hnil
    have hws := List.dropWhile_eq_nil_iff.mp hnil c hc
    rw [hcs] at hws
    cases hws
  have hhead := List.head_dropWhile_not isspace htail
  have hcore : stripped isspace s ≠ [] := by
    intro hnil
    have hws := List.rdropWhile_eq_nil_iff.mp hnil _ (List.head_mem htail)
    rw [hhead] at hws
    cases hws
  have hlast : isspace ((stripped isspace s).getLast hcore) = false :=
    Bool.eq_false_of_not_eq_true (List.rdropWhile_last_not isspace _ hcore)
  have hparts : (stripped isspace s).dropLast ++ (stripped isspace s).getLast hcore ::
      (s.dropWhile isspace).rtakeWhile isspace = s.dropWhile isspace := by
    rw [← List.singleton_append, ← List.append_assoc, List.dropLast_append_getLast]
    exact List.rdropWhile_append_rtakeWhile
  refine ⟨s.takeWhile isspace, (stripped isspace s).dropLast, (stripped isspace s).getLast hcore,
    (s.dropWhile isspace).rtakeWhile isspace, ?_, fun c hc => List.mem_takeWhile_imp hc,
    fun c hc => List.mem_rtakeWhile_imp hc, hlast, ?_, ?_⟩
  · rw [hparts, List.takeWhile_append_dropWhile]
  · exact ⟨_, _, hparts.trans (List.cons_head_tail htail).symm, hhead⟩
  · exact (List.dropLast_append_getLast hcore).symm

/-- The call clears what follows the last character that is no white space. -/
theorem nStrStripWs_run (before after : Bytes) (hlead : ∀ c ∈ lead, isspace c = true)
    (htrail : ∀ c ∈ trail, isspace c = true) (hd : isspace d = false)
    (hfirst : ∃ x rest, front ++ d :: trail = x :: rest ∧ isspace x = false)
    (hnul : 0 ∉ front ++ d :: trail) :
    ∃ log, nStrStripWs isspace (before ++ (lead ++ (front ++ d :: trail) ++ 0 :: after))
        (some before.length) =
        ⟨log, .ok (before ++ (lead ++ (front ++ d :: List.replicate trail.length 0) ++ 0 :: after),
          some (before.length + lead.length : ℕ))⟩ ∧
      ∀ a ∈ log, a.Within before.length (lead ++ (front ++ d :: trail)).length := by
  obtain ⟨x, rest, hx, hxs⟩ := hfirst
  generalize hmem : before ++ (lead ++ (front ++ d :: trail) ++ 0 :: after) = mem
  have hlength : before.length + lead.length + (front ++ d :: trail).length < mem.length + 1 := by
    rw [← hmem]
    simp only [List.length_append, List.length_cons]
    omega
  have hforward : before ++ (lead ++ x :: (rest ++ 0 :: after)) = mem := by
    rw [← hmem, hx]
    simp
  have hend : (before ++ lead) ++ ((front ++ d :: trail) ++ 0 :: after) = mem := by
    rw [← hmem]
    simp
  have hbackward : (before ++ lead ++ front) ++ d :: (trail ++ 0 :: after) = mem := by
    rw [← hmem]
    simp
  obtain ⟨logSkip, hskip, hskipIn⟩ := @skipWs_spec isspace before lead (rest ++ 0 :: after) x
    (mem.length + 1) hlead hxs (by omega)
  obtain ⟨logEnd, hstrchr, hendIn⟩ := @strchrPtr_spec (before ++ lead) after (front ++ d :: trail)
    (mem.length + 1) hnul (by omega)
  have hstr : ((before.length + lead.length : ℕ) : ℤ) ≤ (before ++ lead ++ front).length := by
    simp only [List.length_append]
    omega
  have htrailFuel : trail.length < mem.length + 1 := by
    simp only [List.length_append, List.length_cons] at hlength
    omega
  obtain ⟨logClear, hclear, hclearIn⟩ := @clearWs_spec isspace (before ++ lead ++ front) trail
    (0 :: after) d (mem.length + 1) _ hd htrail hstr htrailFuel
  rw [hforward] at hskip
  have hplace : (before ++ lead).length = before.length + lead.length := List.length_append
  rw [hend, hplace] at hstrchr
  rw [hbackward] at hclear
  have hback : ((before.length + lead.length + (front ++ d :: trail).length : ℕ) : ℤ) - 1 =
      ((before ++ lead ++ front).length + trail.length : ℕ) := by
    simp only [List.length_append, List.length_cons]
    omega
  refine ⟨logSkip ++ (logEnd ++ logClear), ?_, ?_⟩
  · have hcleared : before ++ lead ++ front ++ d :: (List.replicate trail.length 0 ++ 0 :: after) =
        before ++ (lead ++ (front ++ d :: List.replicate trail.length 0) ++ 0 :: after) := by simp
    simp only [nStrStripWs, hskip, hstrchr, hback, hclear, hcleared, Exec.bind_ok, Exec.pure_def,
      List.append_nil]
  · simp only [Access.Within, List.length_append, List.length_cons] at hskipIn hendIn hclearIn ⊢
    intro a ha
    rcases List.mem_append.mp ha with ha | ha
    · obtain ⟨hlow, hhigh⟩ := hskipIn a ha
      omega
    · rcases List.mem_append.mp ha with ha | ha
      · obtain ⟨hlow, hhigh⟩ := hendIn a ha
        omega
      · obtain ⟨hlow, hhigh⟩ := hclearIn a ha
        omega

/-- What is left of the string ends where its trailing white space began. -/
theorem stringAt_run (before after : Bytes) (n : ℕ) (hnul : 0 ∉ lead ++ (front ++ d :: trail)) :
    stringAt (before ++ (lead ++ (front ++ d :: List.replicate n 0) ++ 0 :: after))
      (before.length + lead.length) = front ++ [d] := by
  have hother : ∀ c ∈ front ++ [d], decide (c ≠ 0) = true := by
    intro c hc
    refine decide_eq_true ?_
    rintro rfl
    refine hnul (List.mem_append_right _ ?_)
    rcases List.mem_append.mp hc with hc | hc
    · exact List.mem_append_left _ hc
    · obtain rfl := List.mem_singleton.mp hc
      exact List.mem_append_right _ (List.mem_cons_self ..)
  have hsplit : before ++ (lead ++ (front ++ d :: List.replicate n 0) ++ 0 :: after) =
      (before ++ lead) ++ ((front ++ [d]) ++ (List.replicate n 0 ++ 0 :: after)) := by simp
  have hend : (List.replicate n (0 : UInt8) ++ 0 :: after).takeWhile (· ≠ 0) = [] := by
    cases n <;> rfl
  rw [stringAt, hsplit, List.drop_left' List.length_append, List.takeWhile_append_of_pos hother,
    hend, List.append_nil]

/-- A string with a character that is no white space is stripped as it should be. -/
theorem stripsWell_of_other (before after : Bytes) (hnul : 0 ∉ s)
    (hs : ∃ c ∈ s, isspace c = false) : StripsWell isspace before s after := by
  obtain ⟨lead, front, d, trail, rfl, hlead, htrail, hd, hfirst, hstripped⟩ := exists_core hs
  obtain ⟨log, hrun, hwithin⟩ := nStrStripWs_run before after hlead htrail hd hfirst
    fun h0 => hnul (List.mem_append_right _ h0)
  refine ⟨lead ++ (front ++ d :: List.replicate trail.length 0), lead.length, ?_, ?_, ?_, ?_, ?_⟩
  · rw [hrun]
  · simp only [List.length_append, List.length_cons, List.length_replicate]
  · rw [List.length_append]
    exact Nat.le_add_right ..
  · rw [hstripped, stringAt_run before after _ hnul]
  · rw [hrun]
    exact hwithin

/-- In a string of nothing but white space the second loop leaves the string. -/
theorem not_stripsWell_of_ws (before after : Bytes) (h0 : isspace 0 = false)
    (hs : ∀ c ∈ s, isspace c = true) : ¬StripsWell isspace before s after := by
  rintro ⟨s', p, -, -, -, -, hwithin⟩
  generalize hmem : before ++ (s ++ 0 :: after) = mem at hwithin
  have hfuel : s.length < mem.length + 1 := by
    rw [← hmem]
    simp only [List.length_append, List.length_cons]
    omega
  obtain ⟨logSkip, hskip, -⟩ := @skipWs_spec isspace before s after 0 (mem.length + 1) hs h0 hfuel
  obtain ⟨logEnd, hstrchr, -⟩ := @strchrPtr_spec (before ++ s) after [] (mem.length + 1)
    List.not_mem_nil (Nat.succ_pos _)
  have hover := @clearWs_runs_over isspace before s (0 :: after) (mem.length + 1) _ hs le_rfl hfuel
  rw [hmem] at hskip hover
  rw [List.append_assoc, List.nil_append, hmem, List.length_nil, Nat.add_zero,
    List.length_append] at hstrchr
  have hload : Access.load ((before.length : ℤ) - 1) ∈
      (nStrStripWs isspace mem (some before.length)).log := by
    simp only [nStrStripWs, hskip, hstrchr, Exec.bind_ok]
    exact List.mem_append_right _ (List.mem_append_right _ (Exec.mem_log_bind _ hover))
  obtain ⟨hlow, -⟩ := hwithin _ hload
  simp only [Access.pointer] at hlow
  omega

/-- `n_str_strip_ws` keeps to the string exactly if there is something but white space in it. -/
theorem strips_iff (isspace : UInt8 → Bool) (h0 : isspace 0 = false) (before s after : Bytes)
    (hnul : 0 ∉ s) :
    StripsWell isspace before s after ↔ ∃ c ∈ s, isspace c = false := by
  constructor
  · intro hstrips
    by_contra hnone
    push Not at hnone
    exact not_stripsWell_of_ws before after h0
      (fun c hc => Bool.eq_true_of_not_eq_false (hnone c hc)) hstrips
  · exact stripsWell_of_other before after hnul

theorem strips_padded : StripsWell isspaceC [65] [32, 97, 32, 98, 9] [66] :=
  (strips_iff isspaceC rfl [65] [32, 97, 32, 98, 9] [66] (by decide)).mpr (by decide)

/-- The empty string behind a space: the call clears the space, which is not part of it. -/
theorem empty_not_strips : ¬StripsWell isspaceC [65, 32] [] [] ∧
    (nStrStripWs isspaceC [65, 32, 0] (some 2)).result = .ok ([65, 0, 0], some 2) :=
  ⟨not_stripsWell_of_ws [65, 32] [] rfl (fun _ hc => absurd hc List.not_mem_nil), by decide⟩

end Trurl.Nstr
