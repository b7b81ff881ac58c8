import ShaderReflect.Stage.Assembly

/-!
# Reflection

`Config.reflect` says everything about the entry points of a binary (specification, 6: the
configuration and `reflect`). The entry points share one list of types. It works in this order: the
graph is built, the constants are evaluated, and then each entry point is analyzed, paired if that
is asked for, and assembled.

A binary that has not been given is a fault, and so is an empty one, before anything else is looked
at. The first fault ends the reflection, and nothing partial is returned (specification, 7); the
events that were noted before it remain.

Where the program goes through declarations in an order of its own choice, the order is a parameter
(`Visits`). By default everything is gone through in ascending order. What the parameter can change,
which is only the violation that is named when a binary is rejected, is told in `Proofs/Visits`.

* `Config`: what to reflect and how. Options are independent of each other.
* `Reflection`: the header, the types, and the entry points in the order of their declarations. Two
  entry points may have one name; `Reflection.entryPoint?` finds the first.
-/

namespace ShaderReflect

/-- Everything that is said about a binary. -/
structure Reflection where
  header : Header
  /-- The types that the entry points refer to, and those that these are built from. -/
  types : List (TypeDesc TypeIdx)
  entryPoints : List (EntryPoint TypeIdx)
deriving DecidableEq, Repr

namespace Reflection

/-- The type at a place. -/
def type? (r : Reflection) (i : TypeIdx) : Option (TypeDesc TypeIdx) := r.types[i]?

/-- The first entry point with a name. -/
def entryPoint? (r : Reflection) (name : String) : Option (EntryPoint TypeIdx) :=
  r.entryPoints.find? (·.name = name)

/-- Whether a type is referred to, by an entry point or by another type. -/
def refersTo (r : Reflection) (i : TypeIdx) : Bool :=
  r.entryPoints.any (i ∈ ·.refs) || r.types.any (i ∈ ·.refs)

end Reflection

/-- What to reflect, and how. -/
structure Config where
  /-- The words of the binary, if one has been given. -/
  binary : Option (List Word) := none
  /-- Attribute every resource to every entry point. -/
  allResources : Bool := false
  /-- Report an image that is used with one sampler only together with that sampler. -/
  combineSamplers : Bool := false
  /-- Give names to what has none, and make names distinct. -/
  uniqueNames : Bool := false
  overrides : List Override := []
deriving DecidableEq, Repr

namespace Config

/-- The binary to reflect, which must have been given and must not be empty. -/
def words (c : Config) : Except Fault (List Word) :=
  match c.binary with
  | none => .error (.absent .binary)
  | some [] => .error (.outOfRange .emptyBinary)
  | some ws => .ok ws

/-- The entry points of a graph so far, with the arena that holds their types. -/
structure Progress where
  arena : Arena := {}
  entryPoints : List (EntryPoint TypeIdx) := []

/-- Analyze and assemble one more entry point. -/
def addEntryPoint (c : Config) (s : Source) (p : Progress) (e : EntryPointDecl) :
    Traced Progress := do
  let reach ← Reach.trace s.graph e c.allResources
  let pairing ← if c.combineSamplers then Pairing.trace s.graph reach else pure {}
  let (entryPoint, arena) ← s.assemble e reach pairing p.arena
  return { arena, entryPoints := p.entryPoints ++ [entryPoint] }

/-- The entry points of a graph whose constants have been evaluated. -/
def entryPoints (c : Config) (s : Source) : Traced Progress :=
  s.graph.annotations.entryPoints.foldlM (c.addEntryPoint s) {}

/-- Reflect a binary. -/
def reflect (c : Config) (visits : Visits := {}) : Traced Reflection := do
  let graph ← Graph.load (← c.words) visits
  let specialization ← Specialization.apply graph c.overrides visits
  let p ← c.entryPoints { graph, specialization, uniqueNames := c.uniqueNames }
  Traced.note (.reflected p.entryPoints.length)
  return { header := graph.header, types := p.arena.types, entryPoints := p.entryPoints }

end Config

end ShaderReflect
