import ShaderReflect.Layout.Names
import ShaderReflect.Layout.TypeDesc
import ShaderReflect.Specialization

/-!
# The arena of described types

The described types of a reflection are kept in one list, the arena, and refer to each other by
their places in it. Types that are described alike share a place. A type is put into the arena after
the types that it is built from, so references point backwards.

* `Source.describe` describes a declared type whose operands are in the arena.
* `Arena.intern` finds the place of a description, or puts it at the end.
* `Source.materialize` puts a declared type, and all that it is built from, into the arena. The last
  operand goes first.

Sizes depend on descriptions alone (`TypeDesc.size`), so types that share a place share a size.

The specification (4.6) materializes types bottom-up with an explicit stack and no recursion over
the type graph. The recursion here is over a depth that the number of types bounds; that it does
what the stack does, in the same order, is proved in `Proofs/Layout/Stack` and
`Proofs/Layout/Refinement`.

With unique names, a struct gets its name when it is put at its place. It is found by the
description that it had before (`ArenaEntry.key`), so declared structs that are alike still share a
place. The names of members are made before that, and are part of the description by which a struct
is found.
-/

namespace ShaderReflect

/-- What types are described from. -/
structure Source where
  graph : Graph
  specialization : Specialization
  /-- Whether structs and members get names, and distinct ones. -/
  uniqueNames : Bool

/-- A described type at its place. -/
structure ArenaEntry where
  /-- The description by which the place is found. -/
  key : TypeDesc TypeIdx
  /-- The description that is reported. It differs from the key in the name of a struct. -/
  desc : TypeDesc TypeIdx
  size : Option Nat

/-- The described types so far. -/
structure Arena where
  /-- The places of declared types. -/
  places : Table Ident TypeIdx := .empty
  entries : List ArenaEntry := []
  /-- The names of structs so far. -/
  names : NameTable := {}

namespace Arena

/-- The reported descriptions. -/
def types (a : Arena) : List (TypeDesc TypeIdx) := a.entries.map (·.desc)

/-- The description at a place. -/
def desc? (a : Arena) (i : TypeIdx) : Option (TypeDesc TypeIdx) := a.entries[i]?.map (·.desc)

/-- The size of the type at a place. -/
def size? (a : Arena) (i : TypeIdx) : Option Nat := a.entries[i]?.bind (·.size)

/-- The place of a declared type. -/
def place (a : Arena) (id : Ident) : Except Fault TypeIdx :=
  match a.places.get? id with
  | some i => .ok i
  | none => .error (.corrupted (.notMaterialized id))

/-- A description with a name for a struct that is not taken yet; the name of one without a name is
made from its place. -/
def nameStruct (names : NameTable) (i : TypeIdx) :
    TypeDesc TypeIdx → TypeDesc TypeIdx × NameTable
  | .struct name members =>
    let (name, names) := names.claim (name.getD ("type" ++ toString i)) i
    (.struct (some name) members, names)
  | desc => (desc, names)

/-- Find the place of a description, or put it at the end. -/
def intern (a : Arena) (uniqueNames : Bool) (key : TypeDesc TypeIdx) (size : Option Nat) :
    TypeIdx × Arena :=
  match a.entries.findIdx? (·.key = key) with
  | some i => (i, a)
  | none =>
    let i := a.entries.length
    let (desc, names) := if uniqueNames then nameStruct a.names i key else (key, a.names)
    (i, { a with entries := a.entries ++ [{ key, desc, size }], names })

end Arena

namespace Source

/-- The size of a member. A matrix with a stride takes as many strides as it has rows or columns,
whichever lie next to each other. -/
def memberSize (a : Arena) (i : TypeIdx) (m : MemberDecl) : Option Nat :=
  match a.desc? i, m.matrixStride with
  | some (.matrix column count), some stride =>
    match m.matrixOrder, a.desc? column with
    | some .rowMajor, some (.vector _ rows) => some (stride.toNat * rows.toNat)
    | _, _ => some (stride.toNat * count.toNat)
  | _, _ => a.size? i

/-- The names of the members of a struct. -/
def memberNames (s : Source) (members : List MemberDecl) : List (Option String) :=
  if s.uniqueNames then
    (({} : NameTable).claimAll
      (members.mapIdx fun i m => m.name.getD ("member" ++ toString i))).1.map some
  else members.map (·.name)

/-- The description of a member at a place and with a name. -/
def describeMember (a : Arena) (m : MemberDecl) (type : TypeIdx) (name : Option String) :
    MemberDesc TypeIdx where
  name := name
  offset := m.offset.map UInt32.toNat
  type := type
  size := memberSize a type m
  matrixStride := m.matrixStride.map UInt32.toNat
  matrixOrder := m.matrixOrder
  access := Access.ofDecorations? m.nonWritable m.nonReadable

/-- The descriptions of the members of a struct. -/
def describeMembers (s : Source) (a : Arena) (members : List MemberDecl) :
    Except Fault (List (MemberDesc TypeIdx)) := do
  let places ← members.mapM fun m => a.place m.type
  return ((members.zip places).zip (s.memberNames members)).map fun ((m, type), name) =>
    describeMember a m type name

/-- The description of a declared type whose operands are in the arena. -/
def describe (s : Source) (a : Arena) (id : Ident) :
    TypeDecl → Except Fault (TypeDesc TypeIdx)
  | .void => return .void
  | .bool => return .bool
  | .int width signed => return .int width signed
  | .float width => return .float width
  | .vector element count => return .vector (← a.place element) count
  | .matrix column count => return .matrix (← a.place column) count
  | .array element length stride => do
    let element ← a.place element
    let length ← s.specialization.arrayLength s.graph length
    return .array element length (stride.map UInt32.toNat)
  | .runtimeArray element stride =>
    return .runtimeArray (← a.place element) (stride.map UInt32.toNat)
  | .struct name members _ => return .struct name (← s.describeMembers a members)
  | .pointer storage pointee => return .pointer storage (← a.place pointee)
  | .deviceAddress _ => return .deviceAddress
  | .image unit form => return .image (← a.place unit) form
  | .sampler => return .sampler
  | .sampledImage image => return .combinedImageSampler (← a.place image)
  | .accelStruct => return .accelStruct
  | .unreported => throw (.unsupported (.type id))

/-- Put a declared type at its place, once its operands are in the arena. -/
def put (s : Source) (a : Arena) (id : Ident) (decl : TypeDecl) :
    Except Stop (TypeIdx × Arena) := do
  let desc ← s.describe a id decl
  let size ← desc.size a.size?
  let (i, a) := a.intern s.uniqueNames desc size
  return (i, { a with places := a.places.insertFirst id i })

/-- Put a declared type, and all that it is built from to a depth, into the arena. -/
def materializeTo (s : Source) : Nat → Arena → Ident → Except Stop (TypeIdx × Arena)
  | 0, a, id => do return (← a.place id, a)
  | depth + 1, a, id =>
    match a.places.get? id with
    | some i => .ok (i, a)
    | none => do
      let decl ← s.graph.type id
      let a ← decl.operands.reverse.foldlM
        (fun a operand => Prod.snd <$> s.materializeTo depth a operand) a
      s.put a id decl

/-- Put a declared type, and all that it is built from, into the arena. No type is built to a
greater depth than there are types. -/
def materialize (s : Source) (a : Arena) (id : Ident) : Except Stop (TypeIdx × Arena) :=
  s.materializeTo s.graph.typeOrder.length a id

end Source

end ShaderReflect
