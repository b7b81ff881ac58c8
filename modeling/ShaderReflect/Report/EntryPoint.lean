import ShaderReflect.Reflection
import ShaderReflect.Report.Json

/-!
# The report of a reflection

A reflection is reported as JSON (specification, 6: per file its path and entry points, with types
expanded recursively). Types are written out in full wherever they are referred to; a type without
parts of its own is written as a text, and so is an image type, with the place of the type of its
texel components in it.

To expand types is a recursion along references. These point backwards, so `typesJson` makes the
reports of all types from the first to the last instead, each from those before it. A reference that
leads nowhere is written by its number; a reflection has none.

What is absent is `null`. Values of constants are texts, so that no number loses digits on the way.
The one thing that can fail is the number of descriptors of an array (`Descriptor.count?`): if it
has no room in 32 bits, there is no report at all.
-/

namespace ShaderReflect.Report

/-! ## Types -/

/-- The text of something that may be absent. -/
def optionText (text : String) : Option Bool → String
  | some b => text ++ "Some(" ++ (if b then "true" else "false") ++ ")"
  | none => text ++ "None"

/-- The text of an image type whose texel component has the type at a place. -/
def imageText (unit : TypeIdx) (form : ImageForm) : String :=
  "Image \x7b unit: TypeIdx(" ++ toString unit ++ "), dim: " ++ Enumerant.name form.dimension
    ++ optionText ", is_depth: " form.isDepth
    ++ ", is_array: " ++ toString form.isArray
    ++ ", is_multisampled: " ++ toString form.isMultisampled
    ++ optionText ", is_sampled: " form.isSampled
    ++ ", fmt: " ++ Enumerant.name form.format ++ " \x7d"

/-- The report of a member of a struct. -/
def memberJson (m : MemberDesc Json) : Json := .ofFields [
  ("Name", .ofOption .string m.name), ("Offset", .ofOption .number m.offset),
  ("Size", .ofOption .number m.size), ("MatrixStride", .ofOption .number m.matrixStride),
  ("AxisOrder", .ofOption (fun o => .string o.name) m.matrixOrder),
  ("Access", .ofOption (fun a => .string a.name) m.access), ("MemberType", m.type)]

/-- An object that starts with the kind of a type. -/
def kindJson (kind : String) (fields : List (String × Json)) : Json :=
  .ofFields (("Kind", .string kind) :: fields)

/-- The report of a type, given those of the types that it refers to. -/
def typeJson (type : TypeDesc TypeIdx) (report : TypeIdx → Json) : Json :=
  match type with
  | .vector e n => kindJson "Vector" [("ElementType", report e), ("Count", .number n.toNat)]
  | .matrix c n => kindJson "Matrix" [("VectorType", report c), ("Count", .number n.toNat)]
  | .array e n stride =>
    kindJson "Array" [("ElementType", report e), ("Count", .number n.toNat),
      ("Stride", .ofOption .number stride)]
  | .runtimeArray e stride =>
    kindJson "RuntimeArray" [("ElementType", report e), ("Stride", .ofOption .number stride)]
  | .struct name members =>
    kindJson "Struct" [("Name", .ofOption .string name),
      ("Members", .array (members.map fun m => memberJson (m.map report)))]
  | .pointer storage p =>
    kindJson "Pointer" [("StorageClass", .string (Enumerant.name storage)),
      ("TargetType", report p)]
  | .combinedImageSampler i => kindJson "CombinedImageSampler" [("ImageType", report i)]
  | .image unit form => .string (imageText unit form)
  | .int width signed =>
    .string ("Int \x7b nbit: " ++ toString width ++ ", is_signed: " ++ toString signed ++ " \x7d")
  | .float width => .string ("Float \x7b nbit: " ++ toString width ++ " \x7d")
  | .void => .string "Void"
  | .bool => .string "Bool"
  | .deviceAddress => .string "DeviceAddress"
  | .sampler => .string "Sampler"
  | .accelStruct => .string "AccelStruct"

/-- The report of a place, given those of the first places; a place without a type is written by
its number. -/
def placeJson (reports : List Json) (i : TypeIdx) : Json :=
  reports[i]?.getD (.string ("#" ++ toString i))

/-- The reports of all types. Each type refers to earlier ones only. -/
def typesJson (types : List (TypeDesc TypeIdx)) : List Json :=
  types.foldl (fun reports type => reports ++ [typeJson type (placeJson reports)]) []

/-! ## Entry points -/

/-- The report of a descriptor. -/
def descriptorJson (d : Descriptor Json) : Except Overflow Json := do
  let count ← d.count?
  return .ofFields [
    ("Name", .ofOption .string d.name), ("Set", .number d.set.toNat),
    ("Binding", .number d.binding.toNat), ("DescriptorType", .string d.kind.text),
    ("Type", d.type), ("Count", .ofOption .number count)]

/-- The report of a block of push constants. -/
def pushConstantJson (p : PushConstant Json) : Json := .ofFields [
  ("Name", .ofOption .string p.name), ("Size", .ofOption .number p.size), ("Type", p.type)]

/-- The report of an interface variable. -/
def interfaceVarJson (v : InterfaceVar Json) : Json := .ofFields [
  ("Name", .ofOption .string v.name), ("Location", .number v.location.toNat),
  ("Component", .number v.component.toNat), ("Type", v.type)]

/-- The report of a constant that can be overridden. -/
def specConstantJson (c : SpecConstantVar Json) : Json := .ofFields [
  ("Name", .ofOption .string c.name), ("SpecId", .number c.specId.toNat),
  ("Value", .ofOption (fun v => .string v.text) c.value), ("IsOverridden", .bool c.isOverridden),
  ("Type", c.type)]

/-- The report of an execution mode. -/
def modeJson (m : Mode) : Json :=
  let operand (o : ModeOperand) : Json := .ofFields [
    ("Value", .ofOption (fun v => .string v.text) o.value),
    ("SpecId", .ofOption (fun s => .number s.toNat) o.specId)]
  .ofFields [("ExecutionMode", .number m.mode.toNat), ("Operands", .array (m.operands.map operand))]

/-- The report of a workgroup size. -/
def workgroupSizeJson (s : WorkgroupSize) : Json :=
  .array [.number s.x.toNat, .number s.y.toNat, .number s.z.toNat]

/-- The report of an entry point. -/
def entryPointJson (e : EntryPoint Json) : Except Overflow Json := do
  let descriptors ← e.descriptors.mapM descriptorJson
  return .ofFields [
    ("EntryPoint", .string e.name), ("ExecutionModel", .string (Enumerant.name e.model)),
    ("ExecutionModes", .array (e.modes.map modeJson)),
    ("LocalSize", .ofOption workgroupSizeJson e.workgroupSize),
    ("Variables", .ofFields [
      ("Inputs", .array (e.inputs.map interfaceVarJson)),
      ("Outputs", .array (e.outputs.map interfaceVarJson)),
      ("Descriptors", .array descriptors),
      ("PushConstants", .array (e.pushConstants.map pushConstantJson)),
      ("SpecConstants", .array (e.specConstants.map specConstantJson))])]

/-- The reports of the entry points of a reflection. -/
def entryPointsJson (r : Reflection) : Except Overflow (List Json) :=
  let reports := typesJson r.types
  r.entryPoints.mapM fun e => entryPointJson (e.map (placeJson reports))

/-- The report of the reflection of a file. -/
def fileJson (path : String) (r : Reflection) : Except Overflow Json := do
  return .ofFields [("Path", .string path), ("EntryPoints", .array (← entryPointsJson r))]

end ShaderReflect.Report
