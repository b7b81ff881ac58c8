import ShaderReflect.Bounded
import ShaderReflect.Declared.Type

/-!
# Described types

A `TypeDesc τ` is a type as it is reported (specification, 3): array lengths are numbers, members
have sizes, and `τ` is how it refers to the types that it is built from. In a reflection that is a
`TypeIdx`, the place of a type in a list of all types. In a report it is a document, and in
statements about types that are written out it is a tree.

* `TypeDesc.map` changes the way of referring, `TypeDesc.refs` lists the references.
* `TypeDesc.size` is the size of a type, given those of the types that it refers to.

Sizes are sizes in memory, as far as decorations tell. A vector or matrix takes as much as its
components, an array as many strides as it has elements, or as much as the elements if it has no
stride. A struct ends where its furthest member does if all members have offsets; a member without a
size, such as a trailing array of unknown length, then ends where it starts. If an offset is missing
the members are taken to lie next to each other, and the struct has a size only if all of them have.
Void, pointers, images, samplers and arrays of unknown length have none.

A size that reaches 2 to the power of 64 is an overflow. Members that lie next to each other are
added up from the left until one has no size, so an overflow behind that one does not occur.
-/

namespace ShaderReflect

/-- The place of a type in a list of types. -/
abbrev TypeIdx := Nat

/-- A member of a described struct. -/
structure MemberDesc (τ : Type) where
  name : Option String
  /-- Absent if it is not declared, as for members of interface blocks. -/
  offset : Option Nat
  type : τ
  /-- Absent if the size is only known when the member is used, or never. -/
  size : Option Nat
  matrixStride : Option Nat
  matrixOrder : Option MatrixOrder
  access : Option Access
deriving DecidableEq, Repr

/-- A described type. -/
inductive TypeDesc (τ : Type)
  | void
  | bool
  | int (width : Word) (signed : Bool)
  | float (width : Word)
  | vector (element : τ) (count : Word)
  | matrix (column : τ) (count : Word)
  | array (element : τ) (length : Word) (stride : Option Nat)
  | runtimeArray (element : τ) (stride : Option Nat)
  | struct (name : Option String) (members : List (MemberDesc τ))
  | pointer (storage : StorageClass) (pointee : τ)
  | deviceAddress
  | image (unit : τ) (form : ImageForm)
  | sampler
  | combinedImageSampler (image : τ)
  | accelStruct
deriving DecidableEq, Repr

/-- A member, referring to its type in another way. -/
def MemberDesc.map {τ σ : Type} (f : τ → σ) (m : MemberDesc τ) : MemberDesc σ :=
  { m with type := f m.type }

namespace TypeDesc

variable {τ σ : Type}

/-- A type, referring to others in another way. -/
def map (f : τ → σ) : TypeDesc τ → TypeDesc σ
  | .void => .void
  | .bool => .bool
  | .int w s => .int w s
  | .float w => .float w
  | .vector e n => .vector (f e) n
  | .matrix c n => .matrix (f c) n
  | .array e n s => .array (f e) n s
  | .runtimeArray e s => .runtimeArray (f e) s
  | .struct name ms => .struct name (ms.map (·.map f))
  | .pointer c p => .pointer c (f p)
  | .deviceAddress => .deviceAddress
  | .image u form => .image (f u) form
  | .sampler => .sampler
  | .combinedImageSampler i => .combinedImageSampler (f i)
  | .accelStruct => .accelStruct

/-- The types that a type refers to, in order. -/
def refs : TypeDesc τ → List τ
  | .vector e _ => [e]
  | .matrix c _ => [c]
  | .array e _ _ => [e]
  | .runtimeArray e _ => [e]
  | .struct _ ms => ms.map (·.type)
  | .pointer _ p => [p]
  | .image u _ => [u]
  | .combinedImageSampler i => [i]
  | _ => []

/-- The members of a struct. -/
def members? : TypeDesc τ → Option (List (MemberDesc τ))
  | .struct _ ms => some ms
  | _ => none

/-! ## Sizes -/

/-- The end of a member with an offset; a member without a size ends where it starts. -/
def memberEnd (m : MemberDesc τ) : Except Overflow Nat :=
  Bounded.add Bounded.sizeCeiling (m.offset.getD 0) (m.size.getD 0)

/-- The sum of sizes from the left, up to the first one that is absent. -/
def sumSizes : Nat → List (Option Nat) → Except Overflow (Option Nat)
  | total, [] => .ok (some total)
  | _, none :: _ => .ok none
  | total, some n :: rest => do sumSizes (← Bounded.add Bounded.sizeCeiling total n) rest

/-- The size of a struct. If all members have offsets, it is the end of the furthest one; else the
members are taken to lie next to each other. -/
def structSize (ms : List (MemberDesc τ)) : Except Overflow (Option Nat) :=
  if ms.all (·.offset.isSome) then do
    let ends ← ms.mapM memberEnd
    return some (ends.foldl max 0)
  else sumSizes 0 (ms.map (·.size))

/-- The size of a type in bytes, given those of the types that it refers to. It is absent if the
type has none that is known. -/
def size (sizeOf : τ → Option Nat) : TypeDesc τ → Except Overflow (Option Nat)
  | .bool => .ok (some 4)
  | .int w _ => .ok (some (TypeDecl.bytesOfBits w))
  | .float w => .ok (some (TypeDecl.bytesOfBits w))
  | .vector e n => Bounded.mul? Bounded.sizeCeiling (sizeOf e) n.toNat
  | .matrix c n => Bounded.mul? Bounded.sizeCeiling (sizeOf c) n.toNat
  | .array e n stride => Bounded.mul? Bounded.sizeCeiling (stride.or (sizeOf e)) n.toNat
  | .struct _ ms => structSize ms
  | .deviceAddress => .ok (some 8)
  | _ => .ok none

end TypeDesc

end ShaderReflect
