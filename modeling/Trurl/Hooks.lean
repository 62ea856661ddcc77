import Trurl.CString

/-!
# What a program sees of a call

The containers call back into the program that uses them: the die hook, the function that
frees a datum, and the allocator. A model of a call logs these calls as events.
-/

namespace Trurl

/-- Where a node was obtained from. -/
inductive Origin where
  | heap
  | na
  deriving DecidableEq, Repr

/-- What the hooks and the allocator see of a call. -/
inductive Event (α : Type) where
  /-- `trurl_die` was called and its hook returned. -/
  | die (message : String)
  /-- `free_fn` was called on a datum. -/
  | freeFn (data : α)
  /-- A node for a key was obtained. -/
  | malloc (origin : Origin) (key : Bytes)
  /-- A node was passed to `free`. -/
  | free (origin : Origin) (key : Bytes)
  deriving DecidableEq, Repr

namespace Event

variable {α : Type}

/-- The datum `free_fn` is called on. -/
@[simp] def freedDatum : Event α → Option α
  | .freeFn d => some d
  | _ => none

/-- The origin and the key of a node that is obtained. -/
@[simp] def obtainedNode : Event α → Option (Origin × Bytes)
  | .malloc origin key => some (origin, key)
  | _ => none

/-- The origin and the key of a node that is released. -/
@[simp] def releasedNode : Event α → Option (Origin × Bytes)
  | .free origin key => some (origin, key)
  | _ => none

end Event

variable {α : Type}

/-- The data that were passed to `free_fn`. -/
def freedData (log : List (Event α)) : List α := log.filterMap Event.freedDatum

/-- The nodes that were obtained. -/
def obtained (log : List (Event α)) : List (Origin × Bytes) := log.filterMap Event.obtainedNode

/-- The nodes that were passed to `free`. -/
def released (log : List (Event α)) : List (Origin × Bytes) := log.filterMap Event.releasedNode

@[simp] theorem freedData_append (log log' : List (Event α)) :
    freedData (log ++ log') = freedData log ++ freedData log' :=
  List.filterMap_append

@[simp] theorem obtained_append (log log' : List (Event α)) :
    obtained (log ++ log') = obtained log ++ obtained log' :=
  List.filterMap_append

@[simp] theorem released_append (log log' : List (Event α)) :
    released (log ++ log') = released log ++ released log' :=
  List.filterMap_append

/-- What `free_fn` is called on when a datum goes. -/
def freed (freeFn : Bool) : Option α → List (Event α)
  | some d => if freeFn then [.freeFn d] else []
  | none => []

/-- What is logged when a node goes with its datum. A node of an allocator is not freed. -/
def freeEvents (na freeFn : Bool) (node : Origin × Bytes) (data : Option α) : List (Event α) :=
  freed freeFn data ++ if na then [] else [.free node.1 node.2]

@[simp] theorem freedData_freed (data : Option α) : freedData (freed true data) = data.toList := by
  cases data <;> rfl

theorem freedData_flatMap_freed (freeFn : Bool) (l : List (Option α)) :
    freedData (l.flatMap (freed freeFn)) = if freeFn then l.filterMap id else [] := by
  induction l with
  | nil => cases freeFn <;> rfl
  | cons x l ih =>
    rw [List.flatMap_cons, freedData_append, ih, List.filterMap_cons]
    cases freeFn <;> cases x <;> rfl

@[simp] theorem obtained_freed (freeFn : Bool) (data : Option α) :
    obtained (freed freeFn data) = [] := by
  rcases data with _ | d <;> cases freeFn <;> rfl

@[simp] theorem released_freed (freeFn : Bool) (data : Option α) :
    released (freed freeFn data) = [] := by
  rcases data with _ | d <;> cases freeFn <;> rfl

section

variable {β : Type} {na freeFn : Bool} (node : β → Origin × Bytes) (datum : β → Option α)

theorem freedData_freeEvents (xs : List β) :
    freedData (xs.flatMap fun x => freeEvents na true (node x) (datum x)) =
      xs.filterMap datum := by
  induction xs with
  | nil => rfl
  | cons x xs ih =>
    have hx : freedData (freeEvents na true (node x) (datum x)) = (datum x).toList := by
      rw [freeEvents, freedData_append, freedData_freed]
      cases na <;> exact List.append_nil _
    rw [List.flatMap_cons, freedData_append, ih, hx, List.filterMap_cons]
    cases datum x <;> rfl

theorem released_freeEvents (xs : List β) :
    released (xs.flatMap fun x => freeEvents na freeFn (node x) (datum x)) =
      if na then [] else xs.map node := by
  induction xs with
  | nil => cases na <;> rfl
  | cons x xs ih =>
    rw [List.flatMap_cons, released_append, ih, freeEvents, released_append, released_freed]
    cases na <;> rfl

theorem obtained_freeEvents (xs : List β) :
    obtained (xs.flatMap fun x => freeEvents na freeFn (node x) (datum x)) = [] := by
  induction xs with
  | nil => rfl
  | cons x xs ih =>
    rw [List.flatMap_cons, obtained_append, ih, freeEvents, obtained_append, obtained_freed]
    cases na <;> rfl

end

/-- Reports do not touch data or nodes. -/
theorem books_of_reports {log : List (Event α)} (hlog : ∀ e ∈ log, ∃ message, e = .die message) :
    freedData log = [] ∧ obtained log = [] ∧ released log = [] := by
  refine ⟨?_, ?_, ?_⟩ <;>
  · apply List.filterMap_eq_nil_iff.mpr
    intro e he
    obtain ⟨message, rfl⟩ := hlog e he
    rfl

end Trurl
