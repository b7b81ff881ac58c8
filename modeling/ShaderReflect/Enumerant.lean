import ShaderReflect.Word

/-!
# Enumerants

An enumerant is a named value that a binary writes as a number. An enumeration lists its enumerants;
the number of each is `code`, its name `name`. A number that no enumerant has names none; where an
enumerant is read it is a feature that is not supported (specification, 4.1).

Enumerations are the execution models, the storage classes, and the dimensions and formats of
images. Decorations, built-ins and execution modes are not enumerated: a binary may use any number
for them, and those that a reflection asks for are listed in `Declared/Decoration`.
-/

namespace ShaderReflect

/-- A type whose values are written as numbers and have names. -/
class Enumerant (α : Type) where
  /-- All values. -/
  all : List α
  /-- The number that stands for a value. -/
  code : α → Nat
  /-- The name of a value. -/
  name : α → String

namespace Enumerant

/-- The value that a word stands for. -/
def ofWord? {α : Type} [Enumerant α] (w : Word) : Option α :=
  (Enumerant.all).find? fun a => Enumerant.code a == w.toNat

end Enumerant

end ShaderReflect
