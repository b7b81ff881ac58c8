import ShaderReflect.Declared.Image
import ShaderReflect.Declared.Stage

/-!
# Declared types

A `TypeDecl` is a type as a binary declares it (specification, 3): the types that it is built from
are named by ID, and the length of an array by the ID of a constant. What annotations say about it,
strides, names, offsets and rights, has a place in it that is filled once the binary has been read
(`Annotations.annotate`).

* `TypeDecl.operands`: the types that a type is built from. The pointee of a device address is not
  one of them, so a struct may hold the address of another struct of its kind.
* `TypeDecl.scalarSize?`: the size of a scalar type in bytes. A truth value takes four, as that is
  what overrides it; a number whose width is no multiple of eight takes one more byte for the rest.

Widths and counts are words as they are declared, zero included.
-/

namespace ShaderReflect

/-- The order in which a matrix lies in memory. -/
inductive MatrixOrder
  | columnMajor
  | rowMajor
deriving DecidableEq, Repr

namespace MatrixOrder

instance : Inhabited MatrixOrder := ⟨.columnMajor⟩

/-- The name of an order. -/
def name : MatrixOrder → String
  | .columnMajor => "ColumnMajor"
  | .rowMajor => "RowMajor"

end MatrixOrder

/-- The rights that a shader has on a resource or member. -/
inductive Access
  | readOnly
  | writeOnly
  | readWrite
deriving DecidableEq, Repr

namespace Access

/-- The rights that are left by the two decorations that take one away; nothing is said if both
are. -/
def ofDecorations? (nonWritable nonReadable : Bool) : Option Access :=
  match nonWritable, nonReadable with
  | true, true => none
  | true, false => some .readOnly
  | false, true => some .writeOnly
  | false, false => some .readWrite

/-- The name of an access. -/
def name : Access → String
  | .readOnly => "ReadOnly"
  | .writeOnly => "WriteOnly"
  | .readWrite => "ReadWrite"

/-- Whether there is a right to read. -/
def canRead : Access → Bool
  | .readOnly | .readWrite => true
  | .writeOnly => false

/-- Whether there is a right to write. -/
def canWrite : Access → Bool
  | .writeOnly | .readWrite => true
  | .readOnly => false

end Access

/-- A member of a declared struct, with what its decorations say. -/
structure MemberDecl where
  type : Ident
  name : Option String := none
  offset : Option Word := none
  matrixStride : Option Word := none
  matrixOrder : Option MatrixOrder := none
  nonWritable : Bool := false
  nonReadable : Bool := false
deriving DecidableEq, Repr

/-- A declared type. -/
inductive TypeDecl
  | void
  | bool
  | int (width : Word) (signed : Bool)
  | float (width : Word)
  | vector (element : Ident) (count : Word)
  | matrix (column : Ident) (count : Word)
  /-- The length is the value of a constant. -/
  | array (element length : Ident) (stride : Option Word)
  | runtimeArray (element : Ident) (stride : Option Word)
  | struct (name : Option String) (members : List MemberDecl) (isBufferBlock : Bool)
  | pointer (storage : StorageClass) (pointee : Ident)
  /-- A pointer into physical storage, stored as a 64-bit address. -/
  | deviceAddress (pointee : Ident)
  | image (unit : Ident) (form : ImageForm)
  | sampler
  /-- An image together with its sampler state. -/
  | sampledImage (image : Ident)
  | accelStruct
  /-- A type that is declared but never reported, such as a function type. -/
  | unreported
deriving DecidableEq, Repr

namespace TypeDecl

/-- The types that a type is built from, in order. -/
def operands : TypeDecl → List Ident
  | .vector e _ => [e]
  | .matrix c _ => [c]
  | .array e _ _ => [e]
  | .runtimeArray e _ => [e]
  | .struct _ ms _ => ms.map (·.type)
  | .pointer _ p => [p]
  | .image u _ => [u]
  | .sampledImage i => [i]
  | _ => []

/-- The number of bytes that hold a number of bits. -/
def bytesOfBits (width : Word) : Nat := (width.toNat + 7) / 8

/-- The size of a scalar in bytes. A truth value is kept in 32 bits. -/
def scalarSize? : TypeDecl → Option Nat
  | .bool => some 4
  | .int width _ => some (bytesOfBits width)
  | .float width => some (bytesOfBits width)
  | _ => none

end TypeDecl

end ShaderReflect
