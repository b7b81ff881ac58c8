import ShaderReflect.Layout.Arena
import ShaderReflect.Stage.Pairing

/-!
# Descriptors

A resource variable that is not a push constant block is bound through a descriptor, or through an
array of them (specification, 4.6). `Source.unwrap` takes the array dimensions off its type,
`descriptorKind?` says what kind of descriptor what is left needs. Sets and bindings that are not
declared are zero.

* The outermost dimension may have no length, and is reported as unbounded; all others need one.
  Only the type of a single descriptor goes into the arena.
* A struct is a storage buffer in the storage buffer class, and in the uniform class if it is
  decorated as a buffer block; otherwise it is a uniform buffer.
* An image is a storage image if it is declared to be no sampled one, and a sampled image otherwise;
  buffers and input attachments have kinds of their own. An input attachment needs an index.
* Whatever is left of another type cannot be bound: the variable is left out, with a warning.

An image that the pairing combines is reported together with its sampler only if it is a sampled
image. Its type is then wrapped once more, in a description that no declared type needs to have.

`Descriptor.count?` multiplies the dimensions; the product has to have 32 bits, and it is taken for
the report only, so a reflection does not fail for it.
-/

namespace ShaderReflect

/-- The kinds of descriptors. -/
inductive DescriptorKind
  | sampler
  | combinedImageSampler
  | sampledImage
  | storageImage (access : Access)
  | uniformTexelBuffer
  | storageTexelBuffer (access : Access)
  | uniformBuffer
  | storageBuffer (access : Access)
  | inputAttachment (index : Word)
  | accelStruct
deriving DecidableEq, Repr

/-- The text of a kind of descriptor. -/
def DescriptorKind.text : DescriptorKind → String
  | .sampler => "Sampler"
  | .combinedImageSampler => "CombinedImageSampler"
  | .sampledImage => "SampledImage"
  | .storageImage access => "StorageImage(" ++ access.name ++ ")"
  | .uniformTexelBuffer => "UniformTexelBuffer"
  | .storageTexelBuffer access => "StorageTexelBuffer(" ++ access.name ++ ")"
  | .uniformBuffer => "UniformBuffer"
  | .storageBuffer access => "StorageBuffer(" ++ access.name ++ ")"
  | .inputAttachment index => "InputAttachment(" ++ toString index ++ ")"
  | .accelStruct => "AccelStruct"

/-- A descriptor, or an array of descriptors, that a variable is bound through. -/
structure Descriptor (τ : Type) where
  id : Ident
  set : Word
  binding : Word
  kind : DescriptorKind
  name : Option String
  /-- The type of a single descriptor. -/
  type : τ
  /-- The dimensions of an array of descriptors, outermost first. -/
  dims : List Word
  /-- Whether there is one more dimension, outside the others, whose length is not known. -/
  isUnbounded : Bool
  /-- Whether it is an image that is reported together with its sampler. -/
  isCombined : Bool
deriving DecidableEq, Repr

namespace Descriptor

variable {τ σ : Type}

/-- A descriptor, referring to its type in another way. -/
def map (f : τ → σ) (d : Descriptor τ) : Descriptor σ := { d with type := f d.type }

/-- The number of descriptors, absent if it is not known. -/
def count? (d : Descriptor τ) : Except Overflow (Option Nat) :=
  if d.isUnbounded then .ok none
  else some <$> Bounded.product Bounded.countCeiling (d.dims.map UInt32.toNat)

/-- The text of a descriptor. -/
def text (d : Descriptor τ) : String :=
  "(set=" ++ toString d.set ++ ", bind=" ++ toString d.binding ++ ") " ++ d.kind.text
    ++ String.join (d.dims.map fun n => "[" ++ toString n ++ "]")
    ++ (if d.isUnbounded then "[]" else "")
    ++ (match d.name with
      | some name => " " ++ name
      | none => "")

end Descriptor

/-- The rights on the contents of a variable. One is taken away by a decoration of the variable, or
by decorations of all members. If both are taken away, nothing is said about either. -/
def resourceAccess (nonWritable nonReadable : Bool) (members : List MemberDecl) : Access :=
  let all (p : MemberDecl → Bool) : Bool := !members.isEmpty && members.all p
  (Access.ofDecorations? (nonWritable || all (·.nonWritable))
    (nonReadable || all (·.nonReadable))).getD .readWrite

/-- The rights on the contents of a variable of a graph. -/
def Graph.accessOf (g : Graph) (id : Ident) (members : List MemberDecl) : Access :=
  resourceAccess (g.annotations.hasDecoration id none Decoration.nonWritable)
    (g.annotations.hasDecoration id none Decoration.nonReadable) members

/-- The kind of descriptor for an image. `isCombined` says whether it is paired with one sampler. -/
def imageDescriptorKind (g : Graph) (id : Ident) (isCombined : Bool) (form : ImageForm) :
    Except Fault DescriptorKind :=
  match form.dimension, form.isSampled with
  | .subpassData, _ =>
    match g.annotations.decorationWord? id none Decoration.inputAttachmentIndex with
    | some index => .ok (.inputAttachment index)
    | none => .error (.corrupted (.attachmentIndexMissing id))
  | .buffer, some false => .ok (.storageTexelBuffer (g.accessOf id []))
  | _, some false => .ok (.storageImage (g.accessOf id []))
  | .buffer, _ => .ok .uniformTexelBuffer
  | _, _ => .ok (if isCombined then .combinedImageSampler else .sampledImage)

/-- The kind of descriptor for a variable, given its type without array dimensions; absent if
nothing of that type is bound through a descriptor. -/
def descriptorKind? (g : Graph) (id : Ident) (storage : StorageClass) (isCombined : Bool) :
    TypeDecl → Except Fault (Option DescriptorKind)
  | .struct _ members isBufferBlock =>
    if storage = .storageBuffer ∨ (storage = .uniform ∧ isBufferBlock) then
      .ok (some (.storageBuffer (g.accessOf id members)))
    else .ok (some .uniformBuffer)
  | .image _ form => some <$> imageDescriptorKind g id isCombined form
  | .sampler => .ok (some .sampler)
  | .sampledImage image => do
    match ← g.type image with
    | .image _ { dimension := .buffer, .. } => return some .uniformTexelBuffer
    | _ => return some .combinedImageSampler
  | .accelStruct => .ok (some .accelStruct)
  | _ => .ok none

/-- A type whose array dimensions have been taken off. -/
structure Unwrapped where
  type : Ident
  dims : List Word
  isUnbounded : Bool
deriving DecidableEq, Repr

namespace Source

/-- Take the sized dimensions off a type, to a depth, outermost first. -/
def unwrapSizedTo (s : Source) : Nat → Ident → Except Fault (Ident × List Word)
  | 0, id => .ok (id, [])
  | depth + 1, id => do
    match ← s.graph.type id with
    | .array element length _ =>
      let n ← s.specialization.arrayLength s.graph length
      let (core, dims) ← s.unwrapSizedTo depth element
      return (core, n :: dims)
    | _ => return (id, [])

/-- Take the array dimensions off a type: one without a length, and then those with one. -/
def unwrap (s : Source) (id : Ident) : Except Fault Unwrapped := do
  let (inner, isUnbounded) ←
    match ← s.graph.type id with
    | .runtimeArray element _ => pure (element, true)
    | _ => pure (id, false)
  let (type, dims) ← s.unwrapSizedTo s.graph.typeOrder.length inner
  return { type, dims, isUnbounded }

/-- The descriptor of a resource variable, with the arena that holds its type; absent if the
variable is a removed sampler or is not bound through a descriptor. -/
def descriptor? (s : Source) (pairing : Pairing) (a : Arena) (id : Ident) (v : Variable) :
    Traced (Option (Descriptor TypeIdx) × Arena) := do
  if id ∈ pairing.removed then
    return (none, a)
  let unwrapped ← s.unwrap (← s.graph.pointee v)
  let decl ← s.graph.type unwrapped.type
  match ← descriptorKind? s.graph id v.storage (pairing.isCombined id) decl with
  | none =>
    Traced.note (.resourceIgnored id unwrapped.type)
    return (none, a)
  | some kind =>
    let (image, a) ← s.materialize a unwrapped.type
    let isCombined : Bool :=
      match decl with
      | .image _ _ => kind = .combinedImageSampler
      | _ => false
    let (type, a) :=
      if isCombined then a.intern s.uniqueNames (.combinedImageSampler image) none else (image, a)
    return (some {
      id, kind, type, isCombined
      set := (s.graph.annotations.decorationWord? id none Decoration.descriptorSet).getD 0
      binding := (s.graph.annotations.decorationWord? id none Decoration.binding).getD 0
      name := s.graph.annotations.name? id none
      dims := unwrapped.dims
      isUnbounded := unwrapped.isUnbounded }, a)

end Source

end ShaderReflect
