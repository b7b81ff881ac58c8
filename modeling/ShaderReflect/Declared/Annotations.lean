import ShaderReflect.Declared.Decoration
import ShaderReflect.Declared.Statement
import ShaderReflect.Table

/-!
# The annotations of a binary

Annotations are collected without looking at what they are attached to, so it does not matter where
in a binary they stand (specification, 4.2: names and decorations are buffered and applied in
`finalize`). The first decoration of a kind counts, and the first name that is not empty.

Their targets need not be declared. A decoration of an ID that nothing is declared under, or of a
member that a struct does not have, is kept and never asked for. Of the parameters of a decoration
only the first is read; one that has none counts as absent where its parameter is wanted
(`decorationWord?`), and as present where its presence is (`hasDecoration`).

* `Annotations.add`: one more annotation.
* `Annotations.annotate`: what is said about a type becomes part of it, its stride, its name, and
  all about its members. If a member is decorated as lying row by row and column by column, it lies
  row by row.

Entry points and execution modes are annotations too: they are kept in order, and the function that
they speak about may be declared after them.
-/

namespace ShaderReflect

/-- The annotations of a binary. -/
structure Annotations where
  /-- The entry points, in order. -/
  entryPoints : List EntryPointDecl := []
  /-- The execution modes by function, in order. -/
  modes : List (Ident × ModeDecl) := []
  names : Table Target String := .empty
  /-- The parameters of each kind of decoration. -/
  decorations : Table (Target × Word) (List Word) := .empty

namespace Annotations

/-- The annotations with one more. -/
def add (as : Annotations) : Annotation → Annotations
  | .entryPoint decl => { as with entryPoints := as.entryPoints ++ [decl] }
  | .executionMode function decl => { as with modes := as.modes ++ [(function, decl)] }
  | .name target text =>
    if text.isEmpty then as else { as with names := as.names.insertFirst target text }
  | .decoration target kind params =>
    { as with decorations := as.decorations.insertFirst (target, kind) params }

/-- The name of an entity or member. -/
def name? (as : Annotations) (id : Ident) (member : Option Word) : Option String :=
  as.names.get? ⟨id, member⟩

/-- The parameters of a decoration. -/
def decoration? (as : Annotations) (id : Ident) (member : Option Word) (kind : Word) :
    Option (List Word) :=
  as.decorations.get? (⟨id, member⟩, kind)

/-- Whether there is a decoration of a kind. -/
def hasDecoration (as : Annotations) (id : Ident) (member : Option Word) (kind : Word) : Bool :=
  (as.decoration? id member kind).isSome

/-- The first parameter of a decoration. -/
def decorationWord? (as : Annotations) (id : Ident) (member : Option Word) (kind : Word) :
    Option Word :=
  (as.decoration? id member kind).bind List.head?

/-- The execution modes of a function, in order. -/
def modesOf (as : Annotations) (function : Ident) : List ModeDecl :=
  as.modes.filterMap fun m => if m.1 = function then some m.2 else none

/-- A member of a struct, with what is said about it. -/
def annotateMember (as : Annotations) (struct : Ident) (i : Nat) (m : MemberDecl) : MemberDecl :=
  let member := some (UInt32.ofNat i)
  { m with
    name := as.name? struct member
    offset := as.decorationWord? struct member Decoration.offset
    matrixStride := as.decorationWord? struct member Decoration.matrixStride
    matrixOrder :=
      if as.hasDecoration struct member Decoration.rowMajor then some .rowMajor
      else if as.hasDecoration struct member Decoration.columnMajor then some .columnMajor
      else none
    nonWritable := as.hasDecoration struct member Decoration.nonWritable
    nonReadable := as.hasDecoration struct member Decoration.nonReadable }

/-- A type, with what is said about it. -/
def annotate (as : Annotations) (id : Ident) : TypeDecl → TypeDecl
  | .array element length _ =>
    .array element length (as.decorationWord? id none Decoration.arrayStride)
  | .runtimeArray element _ =>
    .runtimeArray element (as.decorationWord? id none Decoration.arrayStride)
  | .struct _ members _ =>
    .struct (as.name? id none) (members.mapIdx (as.annotateMember id))
      (as.hasDecoration id none Decoration.bufferBlock)
  | decl => decl

end Annotations

end ShaderReflect
