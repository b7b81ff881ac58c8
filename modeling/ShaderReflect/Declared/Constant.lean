import ShaderReflect.Word

/-!
# Declared constants

A constant is a literal, a composite of other constants, or an operation on other constants
(specification, 3). A specialization constant may be given another value before the shader is used;
every operation is one. Null and sampler constants are declared, so that they may be referred to,
but have no value.

The operands of an operation are kept as words. For most operations all of them are IDs of
constants; the last ones of a composite extract, of a composite insert and of a vector shuffle are
indices (`ConstantKind.identOperands`). Only the first of these three is ever evaluated. The words
of a number may be more than its type has room for; that is left to `Scalar.ofWords?`.
-/

namespace ShaderReflect

/-- What a constant is made of. -/
inductive ConstantKind
  | bool (value : Bool)
  /-- The words of a number, the low-order one first. -/
  | scalar (low : Word) (high : List Word)
  | composite (constituents : List Ident)
  | operation (opcode : Opcode) (operands : List Word)
  /-- A null or sampler constant, which has no value to fold. -/
  | valueless
deriving DecidableEq, Repr

/-- A declared constant. -/
structure Constant where
  type : Ident
  kind : ConstantKind
  isSpecialization : Bool
deriving DecidableEq, Repr

/-- Opcodes of operations on constants whose last operands are indices, not IDs. -/
def opCompositeExtract : Opcode := 81
@[inherit_doc opCompositeExtract]
def opVectorShuffle : Opcode := 79
@[inherit_doc opCompositeExtract]
def opCompositeInsert : Opcode := 82

namespace ConstantKind

/-- The operands of an operation that are IDs of constants. -/
def identOperands (opcode : Opcode) (operands : List Word) : List Ident :=
  if opcode = opCompositeExtract then operands.take 1
  else if opcode = opVectorShuffle ∨ opcode = opCompositeInsert then operands.take 2
  else operands

end ConstantKind

end ShaderReflect
