import ShaderReflect.Binary.Instruction
import ShaderReflect.Binary.Operands
import ShaderReflect.Declared.Constant
import ShaderReflect.Declared.Role
import ShaderReflect.Declared.Type

/-!
# Statements

A statement is what an instruction says to a reflection. An *annotation* speaks about an entity that
may be declared before or after it; a *declaration* declares an entity or says what a function does.
`Statement.read` reads the statement of an instruction; whether the instruction stands in a function
body decides some cases before its operands are looked at.

Operands are read in their order (specification, 4.1), and the first one that is missing or refused
is the fault. Operands beyond those that are read are not looked at: a type may have more words than
its kind takes. What comes before any operand:

* an opcode that is unsupported, or unknown and outside a body, is refused;
* a type in a body is a corruption, and so is a function in a function;
* a variable in a body is left out, as nothing can be bound to it.

An instruction of a body that stands outside of one is read first and refused afterwards
(`Declarations.inBody`), so of two faults that of its operands is reported. That an ID is declared
is not asked here.

A pointer into physical storage is read as a device address (specification, 4.2), whose pointee is
not expanded later.
-/

namespace ShaderReflect

/-- A declared entry point. -/
structure EntryPointDecl where
  name : String
  model : ExecutionModel
  function : Ident
  interface : List Ident
deriving DecidableEq, Repr

/-- The operands of an execution mode. -/
inductive ModeParams
  | literals (words : List Word)
  /-- Each operand is the ID of a constant. -/
  | idents (ids : List Ident)
deriving DecidableEq, Repr

/-- A declared execution mode. -/
structure ModeDecl where
  mode : Word
  params : ModeParams
deriving DecidableEq, Repr

/-- What a name or decoration is attached to: an entity, or a member of a struct. -/
structure Target where
  id : Ident
  member : Option Word := none
deriving DecidableEq, Repr

/-- A declared variable. Its type is a pointer type. -/
structure Variable where
  type : Ident
  storage : StorageClass
deriving DecidableEq, Repr

/-- A statement about an entity that is declared elsewhere. -/
inductive Annotation
  | entryPoint (decl : EntryPointDecl)
  | executionMode (function : Ident) (decl : ModeDecl)
  | name (target : Target) (text : String)
  | decoration (target : Target) (kind : Word) (params : List Word)
deriving DecidableEq, Repr

/-- A statement that declares an entity or says what a function does. -/
inductive Declaration
  | forwardPointer (id : Ident)
  | type (id : Ident) (decl : TypeDecl)
  | constant (id : Ident) (decl : Constant)
  | globalVar (id : Ident) (decl : Variable)
  | function (id : Ident)
  | functionEnd
  | call (callee : Ident) (args : List Ident)
  /-- A pointer is read through, and the result is derived from it. -/
  | derive (result pointer : Ident)
  /-- Pointers are read or written through. -/
  | touch (pointers : List Ident)
  | sampledImage (image sampler : Ident)
deriving DecidableEq, Repr

/-- What an instruction says. -/
inductive Statement
  | ignored
  | annotate (what : Annotation)
  | declare (what : Declaration)
deriving DecidableEq, Repr

namespace Statement

open Read

/-! ## Annotations -/

/-- The operands of an entry point. -/
def readEntryPoint (bound : Word) : Read Annotation := do
  let model ← enumerant ExecutionModel
  let function ← ident bound
  let name ← string
  let interface ← idents bound
  return .entryPoint { name, model, function, interface }

/-- The operands of an execution mode. -/
def readMode (bound : Word) (byIdent : Bool) : Read Annotation := do
  let function ← ident bound
  let mode ← word
  let params ← if byIdent then ModeParams.idents <$> idents bound
    else ModeParams.literals <$> rest
  return .executionMode function { mode, params }

/-- What an annotation of an entity or member is attached to. -/
def readTarget (bound : Word) (isMember : Bool) : Read Target := do
  let id ← ident bound
  let member ← if isMember then some <$> word else pure none
  return { id, member }

/-- The operands of a name. -/
def readName (bound : Word) (isMember : Bool) : Read Annotation := do
  let target ← readTarget bound isMember
  return .name target (← string)

/-- The operands of a decoration. -/
def readDecoration (bound : Word) (isMember : Bool) : Read Annotation := do
  let target ← readTarget bound isMember
  let kind ← word
  return .decoration target kind (← rest)

/-! ## Types -/

/-- What an image type says besides the type of a texel component. -/
def readImageForm : Read ImageForm := do
  let dimension ← word
  let depth ← word
  let isArray ← flag
  let isMultisampled ← flag
  let sampled ← word
  let format ← word
  match Enumerant.ofWord? dimension, Enumerant.ofWord? format with
  | none, _ => fail (.unsupported (.imageDimension dimension))
  | _, none => fail (.unsupported (.imageFormat format))
  | some dimension, some format =>
    return {
      dimension, isArray, isMultisampled, format
      isDepth := if depth = 0 then some false else if depth = 1 then some true else none
      isSampled := if sampled = 1 then some true else if sampled = 2 then some false else none }

/-- The operands of a type after its ID. -/
def readTypeDecl (bound : Word) : TypeForm → Read TypeDecl
  | .void => return .void
  | .bool => return .bool
  | .int => return .int (← word) (← flag)
  | .float => return .float (← word)
  | .vector => return .vector (← ident bound) (← word)
  | .matrix => return .matrix (← ident bound) (← word)
  | .image => return .image (← ident bound) (← readImageForm)
  | .sampler => return .sampler
  | .sampledImage => return .sampledImage (← ident bound)
  | .array => return .array (← ident bound) (← ident bound) none
  | .runtimeArray => return .runtimeArray (← ident bound) none
  | .struct => return .struct none ((← idents bound).map fun type => { type }) false
  | .pointer => do
    let storage ← enumerant StorageClass
    let pointee ← ident bound
    return if storage = .physicalStorageBuffer then .deviceAddress pointee
      else .pointer storage pointee
  | .accelStruct => return .accelStruct
  | .forwardPointer | .unreported => return .unreported

/-- The operands of a type. -/
def readType (bound : Word) : TypeForm → Read Declaration
  | .forwardPointer => do
    let id ← ident bound
    let _ ← enumerant StorageClass
    return .forwardPointer id
  | form => do
    let id ← ident bound
    return .type id (← readTypeDecl bound form)

/-! ## Constants and variables -/

/-- The operands of a constant without constituents. -/
def readConstant (bound : Word) (isSpecialization : Bool) (form : ConstantForm) :
    Read Declaration := do
  let type ← ident bound
  let id ← ident bound
  let words ← rest
  match form, words with
  | .bool value, _ => return .constant id { type, kind := .bool value, isSpecialization }
  | .scalar, [] => fail (.corrupted (.constantWithoutValue id))
  | .scalar, low :: high => return .constant id { type, kind := .scalar low high, isSpecialization }
  | .valueless, _ => return .constant id { type, kind := .valueless, isSpecialization }

/-- The operands of a composite constant. -/
def readComposite (bound : Word) (isSpecialization : Bool) : Read Declaration := do
  let type ← ident bound
  let id ← ident bound
  return .constant id { type, kind := .composite (← idents bound), isSpecialization }

/-- The operands of an operation on constants. -/
def readSpecOperation (bound : Word) : Read Declaration := do
  let type ← ident bound
  let id ← ident bound
  let opcode ← word
  return .constant id { type, kind := .operation opcode (← rest), isSpecialization := true }

/-- The operands of a variable. -/
def readGlobalVar (bound : Word) : Read Declaration := do
  let type ← ident bound
  let id ← ident bound
  return .globalVar id { type, storage := ← enumerant StorageClass }

/-! ## Functions -/

/-- The result type and result ID of an instruction, of which only the latter matters. -/
def readResult (bound : Word) : Read Ident := do
  let _ ← ident bound
  ident bound

/-- The operands of a call. -/
def readCall (bound : Word) : Read Declaration := do
  let _ ← readResult bound
  let callee ← ident bound
  return .call callee (← idents bound)

/-- The operands of an access to memory. -/
def readAccess (bound : Word) : AccessShape → Read Declaration
  | .derive => return .derive (← readResult bound) (← ident bound)
  | .read => do
    let _ ← readResult bound
    return .touch [← ident bound]
  | .write => return .touch [← ident bound]
  | .copy => return .touch [← ident bound, ← ident bound]

/-- The operands of the pairing of an image with a sampler. -/
def readSampledImage (bound : Word) : Read Declaration := do
  let _ ← readResult bound
  return .sampledImage (← ident bound) (← ident bound)

/-! ## All instructions -/

/-- The statement of an instruction with a known role. -/
def ofRole (bound : Word) (inBody : Bool) (i : Instruction) : Role → Except Fault Statement
  | .ignored => return .ignored
  | .unsupported => throw (.unsupported (.opcode i.opcode))
  | .entryPoint => .annotate <$> (readEntryPoint bound).run i.operands
  | .executionMode byIdent => .annotate <$> (readMode bound byIdent).run i.operands
  | .name => .annotate <$> (readName bound false).run i.operands
  | .memberName => .annotate <$> (readName bound true).run i.operands
  | .decoration => .annotate <$> (readDecoration bound false).run i.operands
  | .memberDecoration => .annotate <$> (readDecoration bound true).run i.operands
  | .type form =>
    if inBody then throw (.corrupted .typeInBody)
    else .declare <$> (readType bound form).run i.operands
  | .constant form => .declare <$> (readConstant bound false form).run i.operands
  | .specConstant form => .declare <$> (readConstant bound true form).run i.operands
  | .composite isSpec => .declare <$> (readComposite bound isSpec).run i.operands
  | .specOperation => .declare <$> (readSpecOperation bound).run i.operands
  | .globalVar =>
    -- Variables of a function cannot be bound to anything.
    if inBody then return .ignored
    else .declare <$> (readGlobalVar bound).run i.operands
  | .function =>
    if inBody then throw (.corrupted .nestedFunction)
    else (.declare ∘ .function) <$> (readResult bound).run i.operands
  | .functionEnd => return .declare .functionEnd
  | .functionCall => .declare <$> (readCall bound).run i.operands
  | .access shape => .declare <$> (readAccess bound shape).run i.operands
  | .sampledImage => .declare <$> (readSampledImage bound).run i.operands

/-- The statement of an instruction. `inBody` says whether it stands in a function body. -/
def read (bound : Word) (inBody : Bool) (i : Instruction) : Except Fault Statement :=
  match Role.ofOpcode? i.opcode with
  | some role => ofRole bound inBody i role
  | none =>
    if inBody then return .ignored else throw (.unsupported (.unknownOpcode i.opcode))

end Statement

end ShaderReflect
