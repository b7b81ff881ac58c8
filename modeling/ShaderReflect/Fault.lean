import ShaderReflect.Word
import ShaderReflect.Text.Number

/-!
# Faults

A `Fault` says why a request cannot be answered (specification, 7). It is sorted by who is to blame:
a missing or bad argument, a binary that breaks the rules, one that uses a feature that is not
understood, or an override that cannot be applied. Each kind has one constructor for each thing that
can be wrong, with the numbers and names that its message mentions; `Fault.message` is the wording.
Code that only asks for the kind looks at the outer constructor.

A computation whose numbers leave their range stops with an `Overflow` instead; `Stop` is either.
The specification does not know of overflows: one ends the whole run, and no caller goes on after
it.

* `Absence`, `Shortage`, `Misuse`: faults of the caller, the first for `null` arguments.
* `Corruption`, `Unsupported`: faults of the binary.
* `Unspecializable`: an override, or a default, that leaves a needed constant without a value.
-/

namespace ShaderReflect

/-- A required argument that is absent. -/
inductive Absence
  /-- No binary was given. -/
  | binary
  /-- The handle holds no reflection. -/
  | reflection
deriving DecidableEq, Repr

/-- An argument that is too short. -/
inductive Shortage
  | emptyBinary
  | emptyOverride (specId : Word)
  | slots (entryPoints slots : Nat)
deriving DecidableEq, Repr

/-- An argument that does not fit its use. -/
inductive Misuse
  | repeatedOverride (specId : Word)
  | overrideSize (constant : Ident) (given expected : Nat)
  | handleInUse
deriving DecidableEq, Repr

/-- A rule that the binary breaks. -/
inductive Corruption
  | partialWord
  | shortHeader
  | magic (word : Word)
  | versionWord (word : Word)
  | zeroBound
  | zeroWordCount (opcode : Opcode)
  | truncated (opcode : Opcode)
  | missingOperands
  | unterminatedString
  | invalidString
  | outOfBound (id bound : Ident)
  | typeInBody
  | nestedFunction
  | unmatchedFunctionEnd
  | unterminatedFunction
  | outsideBody
  | typeRedefined (id : Ident)
  | variableRedefined (id : Ident)
  | constantRedefined (id : Ident)
  | functionRedefined (id : Ident)
  | constantWithoutValue (id : Ident)
  | typeUndeclared (id : Ident)
  | constantUndeclared (id : Ident)
  | variableUndeclared (id : Ident)
  | functionUndefined (id : Ident)
  | lengthUndeclared (type length : Ident)
  | forwardPointerUndeclared (id : Ident)
  | constituentUndeclared (constant constituent : Ident)
  | operandUndeclared (constant operand : Ident)
  | variableWithoutPointer (id : Ident)
  | entryPointWithoutFunction (name : String)
  | calleeUndefined (function : Ident)
  | typeCycle (id : Ident)
  | notPointer (type : Ident)
  | notScalar (constant : Ident)
  | arrayLength (constant : Ident)
  | notMaterialized (type : Ident)
  | pushConstantNotStruct (id : Ident)
  | attachmentIndexMissing (id : Ident)
deriving DecidableEq, Repr

/-- A feature that is not understood. -/
inductive Unsupported
  | version (major minor : Nat)
  | enumerant (word : Word)
  | unknownOpcode (opcode : Opcode)
  | opcode (opcode : Opcode)
  | imageDimension (word : Word)
  | imageFormat (word : Word)
  | type (id : Ident)
deriving DecidableEq, Repr

/-- Where a workgroup size is declared. -/
inductive SizeSource
  | builtIn
  | executionMode
deriving DecidableEq, Repr

/-- An override, or a default, that leaves a needed constant without a usable value. -/
inductive Unspecializable
  | notScalarDefault (constant : Ident)
  | arrayLength (constant : Ident)
  | workgroupSize (source : SizeSource) (entryPoint : String)
deriving DecidableEq, Repr

/-- Why a request cannot be answered. -/
inductive Fault
  | absent (cause : Absence)
  | outOfRange (cause : Shortage)
  | invalidArgument (cause : Misuse)
  | corrupted (cause : Corruption)
  | unsupported (cause : Unsupported)
  | specialization (cause : Unspecializable)
deriving DecidableEq, Repr

/-! ## Wording -/

/-- The word for an absent argument. -/
def Absence.text : Absence → String
  | .binary => "spv"
  | .reflection => "reflection"

/-- The wording of a shortage. -/
def Shortage.text : Shortage → String
  | .emptyBinary => "spirv binary is empty"
  | .emptyOverride s => s!"specialization {s} has no value"
  | .slots n m => s!"{n} entry points don't fit in {m} slots"

/-- The wording of a misuse. -/
def Misuse.text : Misuse → String
  | .repeatedOverride s => s!"specialization {s} is given twice"
  | .overrideSize c n m => s!"specialization of constant {c} has {n} bytes, expected {m}"
  | .handleInUse => "handle already holds a reflection"

/-- The wording of a corruption. -/
def Corruption.text : Corruption → String
  | .partialWord => "byte length is not a multiple of word size"
  | .shortHeader => "module is shorter than its header"
  | .magic w => "bad magic number " ++ Text.hexPadded w.toNat 8
  | .versionWord w => "bad version word " ++ Text.hexPadded w.toNat 8
  | .zeroBound => "id bound is zero"
  | .zeroWordCount op => s!"instruction {op} has zero word count"
  | .truncated op => s!"instruction {op} is truncated"
  | .missingOperands => "instruction is missing operands"
  | .unterminatedString => "string literal is not nul-terminated"
  | .invalidString => "string literal is not valid utf-8"
  | .outOfBound x n => s!"id {x} is out of bound {n}"
  | .typeInBody => "type declared in function body"
  | .nestedFunction => "nested function"
  | .unmatchedFunctionEnd => "unmatched function end"
  | .unterminatedFunction => "function is not terminated"
  | .outsideBody => "instruction is only allowed in function bodies"
  | .typeRedefined x => s!"type {x} is redefined"
  | .variableRedefined x => s!"variable {x} is redefined"
  | .constantRedefined x => s!"constant {x} is redefined"
  | .functionRedefined x => s!"function {x} is redefined"
  | .constantWithoutValue x => s!"constant {x} has no value"
  | .typeUndeclared x => s!"type {x} is not declared"
  | .constantUndeclared x => s!"constant {x} is not declared"
  | .variableUndeclared x => s!"variable {x} is not declared"
  | .functionUndefined x => s!"function {x} is not defined"
  | .lengthUndeclared t n => s!"array type {t} has undeclared length {n}"
  | .forwardPointerUndeclared x => s!"forward pointer {x} is never declared"
  | .constituentUndeclared c x => s!"constant {c} has undeclared constituent {x}"
  | .operandUndeclared c x => s!"constant {c} has undeclared operand {x}"
  | .variableWithoutPointer x => s!"variable {x} is not typed by a pointer"
  | .entryPointWithoutFunction name => s!"entry point {name} has no function"
  | .calleeUndefined f => s!"call to undefined function {f}"
  | .typeCycle x => s!"type {x} refers to itself"
  | .notPointer x => s!"type {x} is not a pointer"
  | .notScalar x => s!"constant {x} is not a scalar"
  | .arrayLength x => s!"array length {x} is not a positive integer"
  | .notMaterialized x => s!"type {x} is used before materialized"
  | .pushConstantNotStruct x => s!"push constant {x} is not a struct"
  | .attachmentIndexMissing x => s!"input attachment {x} has no index"

/-- The wording of an unsupported feature. -/
def Unsupported.text : Unsupported → String
  | .version major minor => s!"spirv version {major}.{minor}"
  | .enumerant w => s!"unknown enumerant {w}"
  | .unknownOpcode op => s!"unknown opcode {op} at module scope"
  | .opcode op => s!"opcode {op}"
  | .imageDimension w => s!"image dimension {w}"
  | .imageFormat w => s!"image format {w}"
  | .type x => s!"type {x} cannot be reflected"

/-- The wording for a source of a workgroup size. -/
def SizeSource.text : SizeSource → String
  | .builtIn => "workgroup size built-in"
  | .executionMode => "local size"

/-- The wording of a failed specialization. -/
def Unspecializable.text : Unspecializable → String
  | .notScalarDefault c => s!"constant {c} is not a scalar specialization constant"
  | .arrayLength c => s!"array length {c} is not specialized to a positive integer"
  | .workgroupSize source name => source.text ++ " of entry point " ++ name ++ " is not resolved"

/-- The wording of a fault: whom it blames, then why. -/
def Fault.message : Fault → String
  | .absent c => "required argument is absent: " ++ c.text
  | .outOfRange c => "argument out of range: " ++ c.text
  | .invalidArgument c => "invalid argument: " ++ c.text
  | .corrupted c => "spirv binary is corrupted: " ++ c.text
  | .unsupported c => "spirv binary used unsupported feature: " ++ c.text
  | .specialization c => "cannot specialize: " ++ c.text

/-! ## Overflow -/

/-- An operation on sizes, offsets or counts whose result is out of range. -/
inductive Overflow
  | addition
  | multiplication
deriving DecidableEq, Repr

/-- The wording of an overflow. -/
def Overflow.message : Overflow → String
  | .addition => "attempt to add with overflow"
  | .multiplication => "attempt to multiply with overflow"

/-- Why a computation ends without a result. -/
inductive Stop
  | fault (fault : Fault)
  | overflow (overflow : Overflow)
deriving DecidableEq, Repr

instance : MonadLift (Except Fault) (Except Stop) := ⟨Except.mapError Stop.fault⟩
instance : MonadLift (Except Overflow) (Except Stop) := ⟨Except.mapError Stop.overflow⟩

end ShaderReflect
