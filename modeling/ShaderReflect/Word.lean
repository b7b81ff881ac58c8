/-!
# Words and IDs

A binary is a list of 32-bit words (specification, 3). An ID is a word by which instructions refer
to each other's results; IDs are ordered as numbers.

IDs have no type of their own. Zero is never an ID, and neither is a word that reaches the bound of
the header; both are refused where an ID is read (`Read.ident`), so what has been read needs no
further check. Two places hold words that are IDs for some uses only: the operands of an operation
on constants (`ConstantKind.identOperands`) and those of an execution mode (`ModeParams`).
-/

namespace ShaderReflect

/-- The 32-bit unit that a binary is made of. -/
abbrev Word := UInt32

/-- A result ID, by which instructions refer to each other's results. -/
abbrev Ident := Word

/-- The number of a mode, decoration or instruction kind in an instruction. -/
abbrev Opcode := Word

end ShaderReflect
