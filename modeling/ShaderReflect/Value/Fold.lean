import ShaderReflect.Value.Scalar

/-!
# Folding operations on constants

An operation on scalars yields a scalar if it is understood and its result is defined
(specification, 4.3: a fixed set of operations on integers and truth values folds, and anything else
stays unresolved without failure). `Operation.table` is that set.

Operations on integers work on 64 bits; the result is cut to the width of the result type. An
operation that cares about signs uses `Scalar.signedReading`, one that does not takes the bits.

* `Operation.logical?` comes first: operations on truth values, and the choice between two scalars
  of any kind.
* `Operation.compare?` is for comparisons, whose result is a truth value whatever the declared type
  is.
* `Operation.arithmetic?` is for the rest. A division by zero, a quotient that 64 bits have no room
  for, and a shift by 64 places or more are undefined.

The checks are those of 64 bits, also for operands that are narrower. So are the readings: the sign
of an integer of less than 64 bits that is declared unsigned is not seen. What this means for
operations of a width is the subject of `Proofs/Value/Folding` and `Proofs/Value/Signs`.
-/

namespace ShaderReflect

/-- Opcodes of operations that fold. -/
inductive Operation
  | uConvert | sConvert | sNegate | iAdd | iSub | iMul | uDiv | sDiv | uMod | sRem | sMod
  | logicalEqual | logicalNotEqual | logicalOr | logicalAnd | logicalNot | select
  | iEqual | iNotEqual | uGreaterThan | sGreaterThan | uGreaterThanEqual | sGreaterThanEqual
  | uLessThan | sLessThan | uLessThanEqual | sLessThanEqual
  | shiftRightLogical | shiftRightArithmetic | shiftLeftLogical
  | bitwiseOr | bitwiseXor | bitwiseAnd | not
deriving DecidableEq, Repr

namespace Operation

/-- The operations by opcode. -/
def table : List (Nat × Operation) := [
  (113, uConvert), (114, sConvert), (126, sNegate), (128, iAdd), (130, iSub), (132, iMul),
  (134, uDiv), (135, sDiv), (137, uMod), (138, sRem), (139, sMod),
  (164, logicalEqual), (165, logicalNotEqual), (166, logicalOr), (167, logicalAnd),
  (168, logicalNot), (169, select), (170, iEqual), (171, iNotEqual), (172, uGreaterThan),
  (173, sGreaterThan), (174, uGreaterThanEqual), (175, sGreaterThanEqual), (176, uLessThan),
  (177, sLessThan), (178, uLessThanEqual), (179, sLessThanEqual),
  (194, shiftRightLogical), (195, shiftRightArithmetic), (196, shiftLeftLogical),
  (197, bitwiseOr), (198, bitwiseXor), (199, bitwiseAnd), (200, not)]

/-- The operation that an opcode stands for. -/
def ofOpcode? (opcode : Opcode) : Option Operation := table.lookup opcode.toNat

/-- An integer operand: its bits, and the number they stand for when the sign bit counts. -/
structure Operand where
  bits : BitVec 64
  signed : Int

/-- A scalar as an operand of an operation on integers. -/
def Operand.ofScalar? : Scalar → Option Operand
  | .int width signed bits => some ⟨bits, Scalar.signedReading width signed bits⟩
  | _ => none

/-- The smallest number of 64 signed bits. -/
def minSigned : Int := -0x8000000000000000

/-- Whether the quotient of two numbers of 64 signed bits is one too. -/
def quotientFits (a b : Int) : Bool := b ≠ 0 ∧ ¬ (a = minSigned ∧ b = -1)

/-- The remainder that takes the sign of the divisor. -/
def remainderOfDivisor (a b : Int) : Int :=
  let r := a.tmod b
  if r ≠ 0 ∧ (r < 0) ≠ (b < 0) then r + b else r

/-- The truth value of an operation on truth values, or the choice between two scalars. -/
def logical? : Operation → List Scalar → Option Scalar
  | .logicalNot, [.bool a] => some (.bool !a)
  | .logicalEqual, [.bool a, .bool b] => some (.bool (a == b))
  | .logicalNotEqual, [.bool a, .bool b] => some (.bool (a != b))
  | .logicalOr, [.bool a, .bool b] => some (.bool (a || b))
  | .logicalAnd, [.bool a, .bool b] => some (.bool (a && b))
  | .select, [.bool c, a, b] => some (if c then a else b)
  | _, _ => none

/-- The truth value of a comparison of integers. -/
def compare? : Operation → List Operand → Option Bool
  | .iEqual, [a, b] => some (a.bits == b.bits)
  | .iNotEqual, [a, b] => some (a.bits != b.bits)
  | .uGreaterThan, [a, b] => some (b.bits.toNat < a.bits.toNat)
  | .sGreaterThan, [a, b] => some (b.signed < a.signed)
  | .uGreaterThanEqual, [a, b] => some (b.bits.toNat ≤ a.bits.toNat)
  | .sGreaterThanEqual, [a, b] => some (b.signed ≤ a.signed)
  | .uLessThan, [a, b] => some (a.bits.toNat < b.bits.toNat)
  | .sLessThan, [a, b] => some (a.signed < b.signed)
  | .uLessThanEqual, [a, b] => some (a.bits.toNat ≤ b.bits.toNat)
  | .sLessThanEqual, [a, b] => some (a.signed ≤ b.signed)
  | _, _ => none

/-- The bits of the result of an operation on integers, if it is defined. -/
def arithmetic? : Operation → List Operand → Option (BitVec 64)
  | .sNegate, [a] => some (BitVec.ofInt 64 (-a.signed))
  | .not, [a] => some (~~~a.bits)
  | .uConvert, [a] => some a.bits
  | .sConvert, [a] => some (BitVec.ofInt 64 a.signed)
  | .iAdd, [a, b] => some (a.bits + b.bits)
  | .iSub, [a, b] => some (a.bits - b.bits)
  | .iMul, [a, b] => some (a.bits * b.bits)
  | .uDiv, [a, b] => if b.bits = 0 then none else some (a.bits / b.bits)
  | .uMod, [a, b] => if b.bits = 0 then none else some (a.bits % b.bits)
  | .sDiv, [a, b] =>
    if quotientFits a.signed b.signed then some (BitVec.ofInt 64 (a.signed.tdiv b.signed))
    else none
  | .sRem, [a, b] =>
    if quotientFits a.signed b.signed then some (BitVec.ofInt 64 (a.signed.tmod b.signed))
    else none
  | .sMod, [a, b] =>
    if quotientFits a.signed b.signed then
      some (BitVec.ofInt 64 (remainderOfDivisor a.signed b.signed))
    else none
  | .shiftRightLogical, [a, b] =>
    if b.bits.toNat < 64 then some (a.bits >>> b.bits.toNat) else none
  | .shiftRightArithmetic, [a, b] =>
    if b.bits.toNat < 64 then some ((BitVec.ofInt 64 a.signed).sshiftRight b.bits.toNat)
    else none
  | .shiftLeftLogical, [a, b] =>
    if b.bits.toNat < 64 then some (a.bits <<< b.bits.toNat) else none
  | .bitwiseOr, [a, b] => some (a.bits ||| b.bits)
  | .bitwiseXor, [a, b] => some (a.bits ^^^ b.bits)
  | .bitwiseAnd, [a, b] => some (a.bits &&& b.bits)
  | _, _ => none

end Operation

/-- The result of an operation on scalars, if it is understood and defined. -/
def fold? (opcode : Opcode) (type : TypeDecl) (args : List Scalar) : Option Scalar := do
  let op ← Operation.ofOpcode? opcode
  (op.logical? args).orElse fun _ => do
    let operands ← args.mapM Operation.Operand.ofScalar?
    match op.compare? operands with
    | some b => some (.bool b)
    | none => Scalar.ofIntBits? type (← op.arithmetic? operands)

end ShaderReflect
