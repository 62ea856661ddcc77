import Trurl.Nhash.Ledger
import Trurl.Oash.Ledger

/-!
# Nodes are released the way they were obtained

A node that the allocator of a table gave stays with the allocator, and a node from the heap is
freed once. Not all places that release a node ask where it came from: `n_hash_remove`, with it
`n_hash_clean`, and `n_oash_clean` free every node.
-/

namespace Trurl

open Lib

variable {α β : Type} {murmur3Hash : Bytes → UInt32}

/-- The released nodes are those that were obtained from the heap, each as often. -/
def ReleasedAsObtained (log : List (Event α)) : Prop :=
  (released log).Perm ((obtained log).filter fun node => node.1 = .heap)

theorem ReleasedAsObtained.of_heap {log : List (Event α)}
    (hheap : ∀ node ∈ obtained log, node.1 = .heap)
    (hperm : (released log).Perm (obtained log)) : ReleasedAsObtained log := by
  have hall : (obtained log).filter (fun node => node.1 = .heap) = obtained log := by
    apply List.filter_eq_self.mpr
    intro node hnode
    exact decide_eq_true (hheap node hnode)
  rw [ReleasedAsObtained, hall]
  exact hperm

theorem ReleasedAsObtained.of_na {log : List (Event α)}
    (hna : ∀ node ∈ obtained log, node.1 = .na) (hnone : released log = []) :
    ReleasedAsObtained log := by
  have hno : (obtained log).filter (fun node => node.1 = .heap) = [] := by
    apply List.filter_eq_nil_iff.mpr
    intro node hnode hheap
    rw [decide_eq_true_eq, hna node hnode] at hheap
    cases hheap
  rw [ReleasedAsObtained, hno, hnone]

section History

variable {ω ρ : Type} {history : List (Record ω ρ (Event α))} {origin : Origin}
  {last : List (Event α)}

/-- The events of a history. -/
def events (history : List (Record ω ρ (Event α))) : List (Event α) := history.flatMap Record.log

theorem obtained_events (history : List (Record ω ρ (Event α))) :
    obtained (events history) = history.flatMap fun record => obtained record.log :=
  List.filterMap_flatMap

theorem released_events (history : List (Record ω ρ (Event α))) :
    released (events history) = history.flatMap fun record => released record.log :=
  List.filterMap_flatMap

/-- The nodes a call obtains have one origin. -/
def ObtainsFrom (origin : Origin) (record : Record ω ρ (Event α)) : Prop :=
  ∀ node ∈ obtained record.log, node.1 = origin

/-- A call frees no node. -/
def ReleasesNothing (record : Record ω ρ (Event α)) : Prop := released record.log = []

/-- All nodes of a history have one origin if those of every call have. -/
theorem origin_of_history (hcalls : ∀ record ∈ history, ObtainsFrom origin record)
    (hlast : obtained last = []) : ∀ node ∈ obtained (events history ++ last), node.1 = origin := by
  intro node hnode
  rw [obtained_append, hlast, List.append_nil, obtained_events] at hnode
  obtain ⟨record, hrecord, hmem⟩ := List.mem_flatMap.mp hnode
  exact hcalls record hrecord node hmem

/-- A history that frees no node. -/
theorem releases_nothing (hcalls : ∀ record ∈ history, ReleasesNothing record)
    (hlast : released last = []) : released (events history ++ last) = [] := by
  rw [released_append, hlast, List.append_nil, released_events]
  exact List.flatMap_eq_nil_iff.mpr hcalls

/-- The nodes of an allocator are never freed by the calls, and those from the heap are freed by
them or in the end. -/
theorem ReleasedAsObtained.of_history {na : Bool} {held : List (Origin × Bytes)}
    (horigin : ∀ record ∈ history, ObtainsFrom (if na then Origin.na else Origin.heap) record)
    (hquiet : obtained last = []) (hlast : released last = if na then [] else held)
    (hnothing : na = true → ∀ record ∈ history, ReleasesNothing record)
    (hbooks : na = false → (history.flatMap fun record => obtained record.log).Perm
      (held ++ history.flatMap fun record => released record.log)) :
    ReleasedAsObtained (events history ++ last) := by
  have hall := origin_of_history horigin hquiet
  cases na with
  | true => exact .of_na hall (releases_nothing (hnothing rfl) hlast)
  | false =>
    apply ReleasedAsObtained.of_heap hall
    rw [released_append, obtained_append, hquiet, hlast, List.append_nil, released_events,
      obtained_events]
    exact List.perm_append_comm.trans (hbooks rfl).symm

end History

/-! ## The chained table -/

namespace Nhash

variable {ht ht' : Table α} {op : Op α} {log : List (Event α)} {reply : Reply α}
  {na freeFn : Bool}

/-- A call that releases nodes the way they were obtained: on a table with an allocator none that
removes a bucket, and on a heap table none that forgets one. -/
def ReleasesRight (murmur3Hash : Bytes → UInt32) (ht : Table α) (op : Op α) : Prop :=
  if ht.na then
    (∀ k, op = .remove k → Misses murmur3Hash ht k) ∧ (op = .clean → ht.buckets = [])
  else
    LosesNothing murmur3Hash ht op

/-- On a heap table without flags every call but `n_hash_clean` does. -/
theorem releasesRight_of_plain (hna : ht.na = false) (hflags : ht.flags = 0) (hop : op ≠ .clean) :
    ReleasesRight murmur3Hash ht op := by
  rw [ReleasesRight, hna]
  exact losesNothing_of_plain hflags hop

/-- A call obtains nodes from the heap or the allocator of its table. -/
theorem Step.obtained_origin (hstep : Step murmur3Hash ht op log ht' reply) :
    ∀ node ∈ obtained log, node.1 = ht.origin := by
  intro node hnode
  cases hstep with
  | denied => exact absurd hnode List.not_mem_nil
  | @put k data replace lost ht₁ ht₂ log ok hput hready hstep =>
    have horigin : ht₁.origin = ht.origin := by
      rw [Table.origin, Table.origin, hready.same.2.2.1]
    rw [obtained_append, (books_of_dropReports lost).2.1, List.nil_append] at hnode
    cases hstep with
    | replaced hcheck hreplace hfinds =>
      rw [obtained_freed] at hnode
      exact absurd hnode List.not_mem_nil
    | refused hcheck hreplace hfinds => exact absurd hnode List.not_mem_nil
    | added hmiss =>
      rw [obtained_append, (books_of_reportsOf _ _).2.1, List.nil_append] at hnode
      rw [List.mem_singleton.mp hnode]
      exact horigin
  | removed hop hfinds => exact absurd hnode List.not_mem_nil
  | missing hop hmiss => exact absurd hnode List.not_mem_nil
  | cleaned hop hloop hempty =>
    rw [(books_of_cleanEvents _ _).1] at hnode
    exact absurd hnode List.not_mem_nil
  | flagged hop hempty => exact absurd hnode List.not_mem_nil

/-- A call that removes no bucket frees no node. -/
theorem Step.released_nil (hremove : ∀ k, op = .remove k → Misses murmur3Hash ht k)
    (hclean : op = .clean → ht.buckets = []) (hstep : Step murmur3Hash ht op log ht' reply) :
    released log = [] := by
  cases hstep with
  | denied => rfl
  | @put k data replace lost ht₁ ht₂ log ok hput hready hstep =>
    rw [released_append, (books_of_dropReports lost).2.2, List.nil_append]
    cases hstep with
    | replaced hcheck hreplace hfinds => exact released_freed _ _
    | refused hcheck hreplace hfinds => rfl
    | added hmiss =>
      rw [released_append, (books_of_reportsOf _ _).2.2]
      rfl
  | removed hop hfinds =>
    exact absurd hfinds.hasKey (hremove _ hop _ hfinds.mem_slots _ hfinds.mem)
  | missing hop hmiss => rfl
  | @cleaned removed gone ht₁ hop hloop hempty =>
    have hperm := hempty.perm
    rw [hclean hop] at hperm
    have hnone : removed = [] := (List.append_eq_nil_iff.mp hperm.eq_nil).1
    rw [hnone]
    rfl
  | flagged hop hempty => rfl

/-- In every run of calls that release right all nodes are released as they were obtained. -/
theorem Runs.released_as_obtained {size : ℕ} (hsize : size ≤ 2 ^ 31)
    {history : List (Record (Op α) (Reply α) (Event α))}
    (hruns : Runs (Op.run murmur3Hash) (ReleasesRight murmur3Hash) (nHashNew2 na size freeFn)
      history ht) : ∃ last, nHashFree ht = ⟨last, .ok none⟩ ∧
        ReleasedAsObtained (events history ++ last) := by
  have hnew := @nHashNew2_held α murmur3Hash na freeFn size hsize
  have hheld : Held murmur3Hash na freeFn ht := by
    apply hruns.invariant hnew
    intro s o log s' r hs _ hcall
    exact (hs.step hcall).held hs
  have horigin : ∀ record ∈ history, ObtainsFrom (if na then Origin.na else Origin.heap) record := by
    apply hruns.forall_record (P := Held murmur3Hash na freeFn) (Q := ObtainsFrom _) hnew
    intro s o log s' r hs _ hcall
    refine ⟨(hs.step hcall).held hs, ?_⟩
    rw [ObtainsFrom, ← hs.na_eq]
    exact (hs.step hcall).obtained_origin
  refine ⟨_, hheld.free, .of_history horigin (obtained_freeEvents ..) (released_freeEvents ..) ?_ ?_⟩
  · rintro rfl
    apply hruns.forall_record (P := Held murmur3Hash true freeFn) (Q := ReleasesNothing) hnew
    intro s o log s' r hs hright hcall
    rw [ReleasesRight, hs.na_eq] at hright
    exact ⟨(hs.step hcall).held hs, (hs.step hcall).released_nil hright.1 hright.2⟩
  · rintro rfl
    have hbooks := @Runs.balanced _ _ _ _ _ _ _ _ _ _ (Held murmur3Hash false freeFn) Table.nodes
      (fun r => obtained r.log) (fun r => released r.log) hruns hnew (by
        intro s o log s' r hs hright hcall
        rw [ReleasesRight, hs.na_eq] at hright
        exact ⟨(hs.step hcall).held hs, (hs.step hcall).nodes hs hright⟩)
    have hnone : (nHashNew2 false size freeFn : Table α).nodes = [] := by
      rw [Table.nodes, nHashNew2_buckets]
      rfl
    rwa [hnone, List.nil_append] at hbooks

end Nhash

/-! ## The open-addressing table -/

namespace Oash

variable {ht ht₀ ht' : Table α} {op : Op α} {log : List (Event α)} {reply : Reply α}
  {na freeFn : Bool}

/-- A call that releases nodes the way they were obtained: on a table with an allocator none that
cleans entries away. -/
def ReleasesRight (ht : Table α) (op : Op α) : Prop :=
  ht.na = true → op = .clean → ht.dentries = []

/-- A call obtains nodes from the heap or the allocator of its table. -/
theorem Move.obtained_origin (hmove : Move murmur3Hash ht op log ht' reply) :
    ∀ node ∈ obtained log, node.1 = ht.origin := by
  intro node hnode
  cases hmove with
  | kept hlog hrefused hnone =>
    rw [(books_of_reports hlog).2.1] at hnode
    exact absurd hnode List.not_mem_nil
  | replaced hput hcell =>
    rw [obtained_freed] at hnode
    exact absurd hnode List.not_mem_nil
  | added hput hins hgrow hreply =>
    rw [List.mem_singleton.mp hnode]
  | removed hop hat =>
    split at hnode
    · exact absurd hnode List.not_mem_nil
    · exact absurd hnode List.not_mem_nil
  | cleaned hop hwf =>
    rw [cleanEvents, obtained_freeEvents] at hnode
    exact absurd hnode List.not_mem_nil
  | flagged hop => exact absurd hnode List.not_mem_nil

/-- A call on a table with an allocator frees no node unless it cleans entries away. -/
theorem Move.released_nil (h : Held true freeFn ht) (hright : ReleasesRight ht op)
    (hmove : Move murmur3Hash ht op log ht' reply) : released log = [] := by
  cases hmove with
  | kept hlog hrefused hnone => exact (books_of_reports hlog).2.2
  | replaced hput hcell => exact released_freed _ _
  | added hput hins hgrow hreply => rfl
  | removed hop hat =>
    rw [h.na_eq]
    rfl
  | cleaned hop hwf =>
    have hperm := h.invariant.wellFormed.toConsistent.dentries_perm
    rw [hright h.na_eq hop] at hperm
    rw [hperm.eq_nil]
    rfl
  | flagged hop => rfl

/-- In every run of calls that release right all nodes are released as they were obtained. -/
theorem Runs.released_as_obtained {size : ℕ}
    (hnew : (ohashNew2 na size freeFn).result = .ok ht₀)
    {history : List (Record (Op α) (Reply α) (Event α))}
    (hruns : Runs (Op.run murmur3Hash) ReleasesRight ht₀ history ht) :
    ∃ last, nOashFree ht = ⟨last, .ok none⟩ ∧ ReleasedAsObtained (events history ++ last) := by
  obtain ⟨hheld₀, hempty⟩ := new2_held hnew
  have hheld : Held na freeFn ht := by
    apply hruns.invariant hheld₀
    intro s o log s' r hs _ hcall
    exact (hs.step hcall).1
  have horigin : ∀ record ∈ history, ObtainsFrom (if na then Origin.na else Origin.heap) record := by
    apply hruns.forall_record (P := Held na freeFn) (Q := ObtainsFrom _) hheld₀
    intro s o log s' r hs _ hcall
    refine ⟨(hs.step hcall).1, ?_⟩
    rw [ObtainsFrom, ← hs.na_eq]
    exact (hs.step hcall).2.obtained_origin
  refine ⟨_, hheld.free, .of_history horigin (obtained_freeEvents ..) (released_freeEvents ..) ?_ ?_⟩
  · rintro rfl
    apply hruns.forall_record (P := Held true freeFn) (Q := ReleasesNothing) hheld₀
    intro s o log s' r hs hright hcall
    exact ⟨(hs.step hcall).1, (hs.step hcall).2.released_nil hs hright⟩
  · rintro rfl
    have hbooks := @Runs.balanced _ _ _ _ _ _ _ _ _ _ (Held false freeFn) Table.nodes
      (fun r => obtained r.log) (fun r => released r.log) hruns hheld₀ (by
        intro s o log s' r hs _ hcall
        exact ⟨(hs.step hcall).1, (hs.step hcall).2.nodes hs⟩)
    have hnone : ht₀.nodes = [] := by
      rw [Table.nodes, hempty]
      rfl
    have hend := hheld.invariant.wellFormed.toConsistent.dentries_perm.map DEntry.node
    rw [hnone, List.nil_append] at hbooks
    exact hbooks.trans (hend.append_right _).symm

end Oash

/-- In every run of one of the two tables with or without an allocator, whose calls release right,
all nodes are released as they were obtained, the last ones when the table is freed. -/
theorem nodes_leave_as_they_came (na freeFn : Bool) {size size' : ℕ} (hsize : size ≤ 2 ^ 31)
    {history : List (Record (Nhash.Op α) (Nhash.Reply α) (Event α))} {ht : Nhash.Table α}
    (hruns : Runs (Nhash.Op.run murmur3Hash) (Nhash.ReleasesRight murmur3Hash)
      (Nhash.nHashNew2 na size freeFn) history ht) {ot₀ ot : Oash.Table β}
    (hnew : (Oash.ohashNew2 na size' freeFn).result = .ok ot₀)
    {history' : List (Record (Oash.Op β) (Oash.Reply β) (Event β))}
    (hruns' : Runs (Oash.Op.run murmur3Hash) Oash.ReleasesRight ot₀ history' ot) :
    (∃ last, Nhash.nHashFree ht = ⟨last, .ok none⟩ ∧
      ReleasedAsObtained (events history ++ last)) ∧
    ∃ last, Oash.nOashFree ot = ⟨last, .ok none⟩ ∧
      ReleasedAsObtained (events history' ++ last) :=
  ⟨Nhash.Runs.released_as_obtained hsize hruns, Oash.Runs.released_as_obtained hnew hruns'⟩

/-- Two keys are inserted, the datum of the first one is replaced, the second one is removed. -/
def twoKeyEvents : List (Event ℕ) :=
  [.malloc .heap Oash.keyU.cstr, .malloc .heap Oash.keyAdxqo.cstr, .freeFn 1,
    .free .heap Oash.keyAdxqo.cstr]

theorem Nhash.twoKey_runs : ∃ history ht, Runs (Nhash.Op.run Oash.murmur3Hash)
    (Nhash.ReleasesRight Oash.murmur3Hash) (Nhash.nHashNew2 false 4 true : Nhash.Table ℕ) history ht ∧
      events history = twoKeyEvents := by
  obtain ⟨ht₁, hfirst, hplain₁, ht₂, hsecond, hplain₂, ht₃, hreplace, hplain₃, ht, hremove⟩ :
      ∃ ht₁, Nhash.Op.run Oash.murmur3Hash (Nhash.nHashNew2 false 4 true)
        (.insert Oash.keyU (some 1)) =
          ⟨[.malloc .heap Oash.keyU.cstr], .ok (ht₁, .accepted true)⟩ ∧
        (ht₁.na = false ∧ ht₁.flags = 0) ∧
      ∃ ht₂, Nhash.Op.run Oash.murmur3Hash ht₁ (.insert Oash.keyAdxqo (some 2)) =
          ⟨[.malloc .heap Oash.keyAdxqo.cstr], .ok (ht₂, .accepted true)⟩ ∧
        (ht₂.na = false ∧ ht₂.flags = 0) ∧
      ∃ ht₃, Nhash.Op.run Oash.murmur3Hash ht₂ (.replace Oash.keyU (some 3)) =
          ⟨[.freeFn 1], .ok (ht₃, .accepted true)⟩ ∧ (ht₃.na = false ∧ ht₃.flags = 0) ∧
      ∃ ht, Nhash.Op.run Oash.murmur3Hash ht₃ (.remove Oash.keyAdxqo) =
          ⟨[.free .heap Oash.keyAdxqo.cstr], .ok (ht, .datum (some 2))⟩ :=
    ⟨_, rfl, ⟨rfl, rfl⟩, _, rfl, ⟨rfl, rfl⟩, _, rfl, ⟨rfl, rfl⟩, _, rfl⟩
  refine ⟨_, ht, .cons ?_ hfirst (.cons ?_ hsecond (.cons ?_ hreplace (.cons ?_ hremove .nil))), rfl⟩
  · exact releasesRight_of_plain rfl rfl (by simp)
  · exact releasesRight_of_plain hplain₁.1 hplain₁.2 (by simp)
  · exact releasesRight_of_plain hplain₂.1 hplain₂.2 (by simp)
  · exact releasesRight_of_plain hplain₃.1 hplain₃.2 (by simp)

theorem Oash.twoKey_runs : ∃ history ot, Runs (Oash.Op.run Oash.murmur3Hash) Oash.ReleasesRight
    (.fresh 4 true : Oash.Table ℕ) history ot ∧ events history = twoKeyEvents := by
  obtain ⟨ot₁, hfirst, ot₂, hsecond, ot₃, hreplace, ot, hremove⟩ :
      ∃ ot₁, Oash.Op.run Oash.murmur3Hash (.fresh 4 true) (.insert Oash.keyU (some 1)) =
          ⟨[.malloc .heap Oash.keyU.cstr], .ok (ot₁, .accepted true)⟩ ∧
      ∃ ot₂, Oash.Op.run Oash.murmur3Hash ot₁ (.insert Oash.keyAdxqo (some 2)) =
          ⟨[.malloc .heap Oash.keyAdxqo.cstr], .ok (ot₂, .accepted true)⟩ ∧
      ∃ ot₃, Oash.Op.run Oash.murmur3Hash ot₂ (.replace Oash.keyU (some 3)) =
          ⟨[.freeFn 1], .ok (ot₃, .accepted true)⟩ ∧
      ∃ ot, Oash.Op.run Oash.murmur3Hash ot₃ (.remove Oash.keyAdxqo) =
          ⟨[.free .heap Oash.keyAdxqo.cstr], .ok (ot, .datum (some 2))⟩ :=
    ⟨_, rfl, _, rfl, _, rfl, _, rfl⟩
  refine ⟨_, ot, .cons ?_ hfirst (.cons ?_ hsecond (.cons ?_ hreplace (.cons ?_ hremove .nil))), rfl⟩
  all_goals exact fun _ hclean => absurd hclean (by simp)

/-- Both tables release the nodes of these two keys. -/
theorem nodes_leave_as_they_came_two : ∃ (ht : Nhash.Table ℕ) (ot : Oash.Table ℕ),
    (∃ last, Nhash.nHashFree ht = ⟨last, .ok none⟩ ∧ ReleasedAsObtained (twoKeyEvents ++ last)) ∧
    ∃ last, Oash.nOashFree ot = ⟨last, .ok none⟩ ∧ ReleasedAsObtained (twoKeyEvents ++ last) := by
  obtain ⟨history, ht, hruns, hevents⟩ := Nhash.twoKey_runs
  obtain ⟨history', ot, hruns', hevents'⟩ := Oash.twoKey_runs
  have hnew : (Oash.ohashNew2 false 4 true).result = .ok (.fresh 4 true : Oash.Table ℕ) := rfl
  have hleave := nodes_leave_as_they_came false true (by omega) hruns hnew hruns'
  rw [hevents, hevents'] at hleave
  exact ⟨ht, ot, hleave⟩

/-- Tables with an allocator: `n_hash_remove` of a key and `n_oash_clean` pass the node of the
allocator to `free`. -/
theorem allocator_nodes_freed :
    (∃ (history : List (Record (Nhash.Op ℕ) (Nhash.Reply ℕ) (Event ℕ))) (ht : Nhash.Table ℕ)
        (last : List (Event ℕ)),
      Runs (Nhash.Op.run Oash.murmur3Hash) (fun _ _ => True) (Nhash.nHashNewNa 4 false) history ht ∧
      Nhash.nHashFree ht = ⟨last, .ok none⟩ ∧
      released (events history ++ last) = [(.na, Oash.keyU.cstr)]) ∧
    ∃ (history : List (Record (Oash.Op ℕ) (Oash.Reply ℕ) (Event ℕ))) (ot₀ ot : Oash.Table ℕ)
        (last : List (Event ℕ)),
      (Oash.nOashNewNa 4 false).result = .ok ot₀ ∧
      Runs (Oash.Op.run Oash.murmur3Hash) (fun _ _ => True) ot₀ history ot ∧
      Oash.nOashFree ot = ⟨last, .ok none⟩ ∧
      released (events history ++ last) = [(.na, Oash.keyU.cstr)] := by
  constructor
  · obtain ⟨ht, ht', hinsert, hremove, hfree⟩ : ∃ ht ht', Nhash.Op.run Oash.murmur3Hash
        (Nhash.nHashNewNa 4 false) (.insert Oash.keyU (some 1)) =
          ⟨[.malloc .na Oash.keyU.cstr], .ok (ht, .accepted true)⟩ ∧
      Nhash.Op.run Oash.murmur3Hash ht (.remove Oash.keyU) =
          ⟨[.free .na Oash.keyU.cstr], .ok (ht', .datum (some 1))⟩ ∧
      Nhash.nHashFree ht' = ⟨[], .ok none⟩ := ⟨_, _, rfl, rfl, rfl⟩
    exact ⟨_, ht', [], .cons trivial hinsert (.cons trivial hremove .nil), hfree, rfl⟩
  · obtain ⟨ot, ot', hinsert, hclean, hfree⟩ : ∃ ot ot', Oash.Op.run Oash.murmur3Hash
        { (.fresh 4 false : Oash.Table ℕ) with na := true } (.insert Oash.keyU (some 1)) =
          ⟨[.malloc .na Oash.keyU.cstr], .ok (ot, .accepted true)⟩ ∧
      Oash.Op.run Oash.murmur3Hash ot .clean =
          ⟨[.free .na Oash.keyU.cstr], .ok (ot', .nothing)⟩ ∧
      Oash.nOashFree ot' = ⟨[], .ok none⟩ := ⟨_, _, rfl, rfl, rfl⟩
    exact ⟨_, _, ot', [], rfl, .cons trivial hinsert (.cons trivial hclean .nil), hfree, rfl⟩

end Trurl
