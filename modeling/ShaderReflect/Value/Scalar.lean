import ShaderReflect.Declared.Type
import ShaderReflect.Text.Number
import ShaderReflect.Text.Shortest

/-!
# Scalar values

A scalar is a truth value, an integer or a floating-point number (specification, 4.3). The bits of a
number are the low-order ones of 64; those beyond its width are zero.

* `Scalar.ofWords?` reads the words of a declared constant, `Scalar.ofBytes?` the bytes of an
  override, the low-order one first in both cases. What is beyond the width is dropped, and so are
  words after the second one.
* `Scalar.signedReading` and `Scalar.natural?` read an integer as a number. The former is what
  operations use; it looks at the sign bit of a narrow integer only if that is declared signed.
* `Scalar.text` writes a scalar, an integer by its sign or without one as it is declared.

A number may have any declared width, zero and more than 64 included: a width of zero has no bits,
and of a wide number the low-order 64 are kept. Floating-point numbers are not computed with. Those
of 32 and 64 bits are written as the shortest decimal that is read back as the same number
(`Text/Shortest`), without an exponent; others by their bits.
-/

namespace ShaderReflect

/-- A scalar value. -/
inductive Scalar
  | bool (value : Bool)
  | int (width : Word) (signed : Bool) (bits : BitVec 64)
  | float (width : Word) (bits : BitVec 64)
deriving DecidableEq, Repr

namespace Scalar

/-- The low-order bits of a number of the given width; the others are zero. -/
def lowBits (width : Word) (bits : BitVec 64) : BitVec 64 :=
  if width.toNat < 64 then (bits.setWidth width.toNat).setWidth 64 else bits

/-- The integer of an integer type that has the given bits, those beyond its width dropped. -/
def ofIntBits? (type : TypeDecl) (bits : BitVec 64) : Option Scalar :=
  match type with
  | .int width signed => some (.int width signed (lowBits width bits))
  | _ => none

/-- The number of a numeric type that has the given bits, those beyond its width dropped. -/
def ofBits? (type : TypeDecl) (bits : BitVec 64) : Option Scalar :=
  match type with
  | .float width => some (.float width (lowBits width bits))
  | _ => ofIntBits? type bits

/-- The bits of a number whose words are given, the low-order one first. Words after the second
one are beyond the reach of a scalar. -/
def bitsOfWords (low : Word) (high : List Word) : BitVec 64 :=
  BitVec.ofNat 64 (low.toNat + 0x100000000 * (high.headD 0).toNat)

/-- The number of a numeric type that is declared by words. -/
def ofWords? (type : TypeDecl) (low : Word) (high : List Word) : Option Scalar :=
  ofBits? type (bitsOfWords low high)

/-- The number whose bytes are given, the low-order one first. -/
def numberOfBytes : List UInt8 → Nat
  | [] => 0
  | b :: bs => b.toNat + 0x100 * numberOfBytes bs

/-- The scalar of a scalar type that is given by bytes: four for a truth value, one to eight for a
number. -/
def ofBytes? (type : TypeDecl) (bytes : List UInt8) : Option Scalar :=
  match type with
  | .bool => if bytes.length = 4 then some (.bool (numberOfBytes bytes ≠ 0)) else none
  | _ =>
    if 0 < bytes.length ∧ bytes.length ≤ 8 then
      ofBits? type (BitVec.ofNat 64 (numberOfBytes bytes))
    else none

/-! ## Readings -/

/-- The number that bits stand for when the sign bit counts: that of the width if the type is
signed, else that of 64 bits. -/
def signedReading (width : Word) (signed : Bool) (bits : BitVec 64) : Int :=
  if signed ∧ 0 < width.toNat ∧ width.toNat < 64 then (bits.setWidth width.toNat).toInt
  else bits.toInt

/-- The value of an integer that is natural and has at most 32 bits. -/
def natural? : Scalar → Option Word
  | .int width signed bits =>
    if signed ∧ signedReading width signed bits < 0 then none
    else if bits.toNat < 0x100000000 then some (UInt32.ofNat bits.toNat) else none
  | _ => none

/-- The value of a truth value. -/
def bool? : Scalar → Option Bool
  | .bool b => some b
  | _ => none

/-! ## Text -/

/-- A binary floating-point format: the sizes of its two fields. -/
structure FloatFormat where
  fractionBits : Nat
  exponentBits : Nat

/-- The number of different fractions. -/
def FloatFormat.fractions (f : FloatFormat) : Nat := Nat.pow 2 f.fractionBits

/-- The number of different exponents. -/
def FloatFormat.exponents (f : FloatFormat) : Nat := Nat.pow 2 f.exponentBits

/-- The format of 32-bit numbers. -/
def single : FloatFormat := ⟨23, 8⟩

/-- The format of 64-bit numbers. -/
def double : FloatFormat := ⟨52, 11⟩

/-- The text of a floating-point number: the shortest decimal in positional notation, without a
point if it is whole. -/
def FloatFormat.text (f : FloatFormat) (bits : Nat) : String :=
  let fraction := bits % f.fractions
  let exponent := bits / f.fractions % f.exponents
  let isNegative := bits / (f.fractions * f.exponents) % 2 = 1
  let sign := if isNegative then "-" else ""
  let bias := f.exponents / 2 - 1
  let smallest : Int := 1 - bias - f.fractionBits
  if exponent = f.exponents - 1 then
    if fraction = 0 then sign ++ "inf" else "NaN"
  else if exponent = 0 then
    if fraction = 0 then sign ++ "0"
    else sign ++ String.ofList (Text.BinaryFraction.shortest ⟨fraction, smallest, false⟩).positional
  else
    let x : Text.BinaryFraction :=
      ⟨f.fractions + fraction, smallest + (exponent - 1 : Nat), fraction = 0⟩
    sign ++ String.ofList x.shortest.positional

/-- The text of a scalar. A floating-point number of an uncommon width is written by its bits. -/
def text : Scalar → String
  | .bool b => if b then "true" else "false"
  | .int width true bits => toString (signedReading width true bits)
  | .int _ false bits => toString bits.toNat
  | .float width bits =>
    if width = 32 then single.text (bits.toNat % 0x100000000)
    else if width = 64 then double.text bits.toNat
    else Text.hex bits.toNat

end Scalar

end ShaderReflect
