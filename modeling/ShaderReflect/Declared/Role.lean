import ShaderReflect.Declared.Stage

/-!
# Roles of opcodes

The one place that says which instructions are understood, and as what (specification, 4.2: the
opcode table is the only place where support boundaries are defined). There are three kinds of
opcodes besides those that are read:

* An ignored opcode carries nothing that a reflection reads, and is skipped everywhere.
* An unsupported one declares something of a kind that is not understood, such as a pipe or a queue.
  It is refused everywhere.
* An opcode that is not in the table may declare something of an unknown shape. It may occur in a
  function body, where it cannot declare anything that a reflection reads and is skipped, and
  nowhere else.

Opcodes of one role are read alike, so a role is all that `Statement.ofRole` looks at. Most atomic
operations, for instance, share the role of a read through a pointer. Function types and ray queries
are types that are never reported (`TypeForm.unreported`): they are declared, so that references to
them can be checked.
-/

namespace ShaderReflect

/-- The kinds of type declarations. -/
inductive TypeForm
  | void | bool | int | float | vector | matrix | image | sampler | sampledImage | array
  | runtimeArray | struct | pointer | forwardPointer | accelStruct
  /-- A type that is never reported. -/
  | unreported
deriving DecidableEq, Repr

/-- The kinds of declarations of constants without constituents. -/
inductive ConstantForm
  | bool (value : Bool)
  | scalar
  | valueless
deriving DecidableEq, Repr

/-- The operands of an instruction that touches memory through a pointer. -/
inductive AccessShape
  /-- A result type, a result and a pointer; the result is derived from the pointer. -/
  | derive
  /-- A result type, a result and a pointer; the result is a plain value. -/
  | read
  /-- A pointer. -/
  | write
  /-- A target pointer and a source pointer. -/
  | copy
deriving DecidableEq, Repr

/-- What an instruction is to a reflection. -/
inductive Role
  /-- It carries nothing that a reflection reads. -/
  | ignored
  | entryPoint
  /-- An execution mode; `byIdent` if its operands are IDs of constants. -/
  | executionMode (byIdent : Bool)
  | name
  | memberName
  | decoration
  | memberDecoration
  | type (form : TypeForm)
  | constant (form : ConstantForm)
  | specConstant (form : ConstantForm)
  | composite (isSpecialization : Bool)
  | specOperation
  | globalVar
  | function
  | functionEnd
  | functionCall
  | access (shape : AccessShape)
  | sampledImage
  /-- It declares something of a kind that is not understood. -/
  | unsupported
deriving DecidableEq, Repr

namespace Role

/-- The understood opcodes in ascending order. -/
def table : List (Nat × Role) := [
  (0, ignored), (1, ignored), (2, ignored), (3, ignored), (4, ignored),
  (5, name), (6, memberName), (7, ignored), (8, ignored), (10, ignored), (11, ignored),
  (12, ignored), (14, ignored), (15, entryPoint), (16, executionMode false), (17, ignored),
  (19, type .void), (20, type .bool), (21, type .int), (22, type .float), (23, type .vector),
  (24, type .matrix), (25, type .image), (26, type .sampler), (27, type .sampledImage),
  (28, type .array), (29, type .runtimeArray), (30, type .struct), (31, unsupported),
  (32, type .pointer), (33, type .unreported), (34, unsupported), (35, unsupported),
  (36, unsupported), (37, unsupported), (38, unsupported), (39, type .forwardPointer),
  (41, constant (.bool true)), (42, constant (.bool false)), (43, constant .scalar),
  (44, composite false), (45, constant .valueless), (46, constant .valueless),
  (48, specConstant (.bool true)), (49, specConstant (.bool false)), (50, specConstant .scalar),
  (51, composite true), (52, specOperation),
  (54, function), (55, ignored), (56, functionEnd), (57, functionCall),
  (59, globalVar), (60, access .derive), (61, access .derive), (62, access .write),
  (63, access .copy), (64, access .copy), (65, access .derive), (66, access .derive),
  (67, access .derive), (68, access .read), (70, access .derive),
  (71, decoration), (72, memberDecoration), (73, ignored), (74, ignored), (75, ignored),
  (83, access .derive), (86, sampledImage),
  (227, access .read), (228, access .write), (229, access .read), (230, access .read),
  (231, access .read), (232, access .read), (233, access .read), (234, access .read),
  (235, access .read), (236, access .read), (237, access .read), (238, access .read),
  (239, access .read), (240, access .read), (241, access .read), (242, access .read),
  (317, ignored), (318, access .read), (319, access .write), (322, unsupported),
  (323, unsupported), (327, unsupported), (330, ignored), (331, executionMode true),
  (332, ignored), (4472, type .unreported), (5341, type .accelStruct), (5614, access .read),
  (5615, access .read), (5632, ignored), (5633, ignored), (6035, access .read)]

/-- The role of an opcode, if it is understood. -/
def ofOpcode? (opcode : Opcode) : Option Role := table.lookup opcode.toNat

end Role

end ShaderReflect
