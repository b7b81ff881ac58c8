import ShaderReflect.Word

/-!
# Decorations

The numbers of the decorations, built-ins and execution modes that a reflection asks for. Binaries
use many others. These are collected alike (`Annotations.add`), and never asked for, except that all
execution modes are reported with their numbers.
-/

namespace ShaderReflect

namespace Decoration

/-- The ID under which a specialization constant may be overridden. -/
def specId : Word := 1
/-- A struct used as a storage buffer of the uniform class. -/
def bufferBlock : Word := 3
/-- A matrix member that lies in memory row by row. -/
def rowMajor : Word := 4
/-- A matrix member that lies in memory column by column. -/
def columnMajor : Word := 5
/-- The distance of array elements in bytes. -/
def arrayStride : Word := 6
/-- The distance of matrix rows or columns in bytes. -/
def matrixStride : Word := 7
/-- A built-in. -/
def builtIn : Word := 11
/-- No right to write. -/
def nonWritable : Word := 24
/-- No right to read. -/
def nonReadable : Word := 25
/-- The location of an interface variable. -/
def location : Word := 30
/-- The first component of an interface variable within its location. -/
def component : Word := 31
/-- The binding of a descriptor. -/
def binding : Word := 33
/-- The descriptor set of a descriptor. -/
def descriptorSet : Word := 34
/-- The offset of a struct member in bytes. -/
def offset : Word := 35
/-- The index of an input attachment. -/
def inputAttachmentIndex : Word := 43

end Decoration

/-- The built-in that is the size of a workgroup. -/
def workgroupSizeBuiltIn : Word := 25

/-- The execution mode that declares the size of a workgroup by literals. -/
def localSizeMode : Word := 17

/-- The execution mode that declares the size of a workgroup by constants. -/
def localSizeIdMode : Word := 38

end ShaderReflect
