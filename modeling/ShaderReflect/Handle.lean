import ShaderReflect.Reflection

/-!
# Handles

A `Handle` holds a reflection or nothing (specification, 4, handle shell). It is filled by `create`,
which is refused while it is full, and emptied by `destroy`. `fill` and `views` give out views of
the entry points of the reflection that it holds.

An empty handle either has never been filled, or has been emptied. The two states answer alike; they
are kept apart as the specification names them. To destroy an empty handle is allowed, and leaves it
as one that has been emptied. A reflection that fails leaves the handle as it was. Each call of
`create` goes through what is declared in orders of its own, which come with the call (`Visits`).

* `Handle.count` and `Handle.fill` are `enumerate_entry_points` without and with slots. The slots
  are a value that is handed back here, in full even after a fault, to say what has become of each.
  If they are too few none is written to; slots beyond the number of entry points stay as they are.
* `Handle.views` asks for the number and then for as many views.

That a view cannot outlive its reflection is a matter of lifetimes, which values do not have: an
`EntryPointView` holds its reflection. The number of an entry point is that of its declaration.
-/

namespace ShaderReflect

/-- What has been done to a handle last. -/
inductive HandleState
  | uninitialized
  | created (reflection : Reflection)
  | destroyed
deriving DecidableEq, Repr

/-- A place for one reflection. -/
structure Handle where
  state : HandleState := .uninitialized
deriving DecidableEq, Repr

/-- One entry point of a reflection. -/
structure EntryPointView where
  reflection : Reflection
  index : Nat
deriving DecidableEq, Repr

/-- The entry point that is viewed. -/
def EntryPointView.entryPoint? (v : EntryPointView) : Option (EntryPoint TypeIdx) :=
  v.reflection.entryPoints[v.index]?

namespace Handle

/-- The reflection that is held. -/
def held (h : Handle) : Option Reflection :=
  match h.state with
  | .created r => some r
  | .uninitialized | .destroyed => none

/-- Whether a reflection is held. -/
def isCreated (h : Handle) : Bool :=
  match h.state with
  | .created _ => true
  | .uninitialized | .destroyed => false

/-- Fill an empty handle with the reflection that a configuration asks for. -/
def create (h : Handle) (c : Config) (visits : Visits := {}) : Traced Handle :=
  if h.isCreated then Traced.ofExcept (.error (.fault (.invalidArgument .handleInUse)))
  else do return { state := .created (← c.reflect visits) }

/-- Empty a handle. -/
def destroy (h : Handle) : Traced Handle := do
  if h.isCreated then Traced.note .reflectionDestroyed
  return { state := .destroyed }

/-- The reflection that is held, which is needed. -/
def reflection (h : Handle) : Except Fault Reflection :=
  match h.held with
  | some r => .ok r
  | none => .error (.absent .reflection)

/-- The number of entry points. -/
def count (h : Handle) : Except Fault Nat := do return (← h.reflection).entryPoints.length

/-- Put views of the entry points from a place on into as many slots as are asked for. The slots
after these stay as they are. -/
def putViews (r : Reflection) (place : Nat) :
    Nat → List (Option EntryPointView) → List (Option EntryPointView)
  | 0, slots => slots
  | _, [] => []
  | n + 1, _ :: slots =>
    some { reflection := r, index := place } :: putViews r (place + 1) n slots

/-- Put views of the entry points into the first slots, if there are enough slots: the number of
entry points or a fault, and the slots afterwards. -/
def fill (h : Handle) (slots : List (Option EntryPointView)) :
    Except Fault Nat × List (Option EntryPointView) :=
  match h.reflection with
  | .error e => (.error e, slots)
  | .ok r =>
    let n := r.entryPoints.length
    if slots.length < n then (.error (.outOfRange (.slots n slots.length)), slots)
    else (.ok n, putViews r 0 n slots)

/-- The views of all entry points. -/
def views (h : Handle) : Except Fault (List EntryPointView) := do
  let n ← h.count
  let (result, slots) := h.fill (List.replicate n none)
  let _ ← result
  return slots.filterMap id

end Handle

end ShaderReflect
