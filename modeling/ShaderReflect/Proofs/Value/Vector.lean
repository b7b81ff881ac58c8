import Mathlib.Algebra.Group.Int.Defs
import Mathlib.Algebra.GroupWithZero.Nat
import ShaderReflect.Proofs.Outcome
import ShaderReflect.Value.Fold

/-!
# Integers as bit vectors

An integer of at most 64 bits is a bit vector of its width that is kept in 64 bits, with zeros above
it (`Scalar.ofVector`). An operation on integers computes with 64 bits and cuts the result. What it
should compute is an operation on the vectors (`unary?`, `convert?`, `binary?`, `shift?`,
`comparison?`), which has no result where it is undefined.

Results:
* `Scalar.signedReading_vector`: the number that an integer is read as, which is the one of its
  vector with a sign, or without one if the integer is declared unsigned and has less than 64 bits.
* `Operation.setWidth_eq_of_toInt`: a number that is right up to multiples of the modulus is right
  once it is cut.
* `Operation.quotientFits_iff`: which quotients are refused.
* `Operation.fold?_integers`: what folding does with integers.
-/

namespace ShaderReflect

/-! ## Integers -/

namespace Scalar

variable {width : Word} {signed : Bool}

/-- The integer whose bits are those of a vector. -/
def ofVector (width : Word) (signed : Bool) (v : BitVec width.toNat) : Scalar :=
  .int width signed (v.setWidth 64)

/-- **Every integer without bits beyond its width** is that of a vector. -/
theorem exists_ofVector {bits : BitVec 64} (h : bits.toNat < 2 ^ width.toNat) :
    ∃ v, Scalar.int width signed bits = ofVector width signed v := by
  refine ⟨bits.setWidth width.toNat, congrArg _ (BitVec.eq_of_toNat_eq ?_)⟩
  rw [BitVec.toNat_setWidth, BitVec.toNat_setWidth, Nat.mod_eq_of_lt h,
    Nat.mod_eq_of_lt bits.isLt]

theorem toNat_setWidth_vector (hle : width.toNat ≤ 64) (v : BitVec width.toNat) :
    (v.setWidth 64).toNat = v.toNat := by
  rw [BitVec.toNat_setWidth]
  exact Nat.mod_eq_of_lt (Nat.lt_of_lt_of_le v.isLt (Nat.pow_le_pow_right (by decide) hle))

theorem setWidth_setWidth_vector (hle : width.toNat ≤ 64) (v : BitVec width.toNat) :
    (v.setWidth 64).setWidth width.toNat = v := by
  refine BitVec.eq_of_toNat_eq ?_
  rw [BitVec.toNat_setWidth, toNat_setWidth_vector hle, Nat.mod_eq_of_lt v.isLt]

/-- The result of an operation is cut to the width of its type. -/
theorem ofIntBits?_vector (hle : width.toNat ≤ 64) (bits : BitVec 64) :
    ofIntBits? (.int width signed) bits =
      some (ofVector width signed (bits.setWidth width.toNat)) := by
  have hcut : lowBits width bits = (bits.setWidth width.toNat).setWidth 64 := by
    unfold lowBits
    by_cases hlt : width.toNat < 64
    · rw [if_pos hlt]
    · have heq : width.toNat = 64 := by omega
      rw [if_neg hlt, heq, BitVec.setWidth_eq, BitVec.setWidth_eq]
  rw [ofIntBits?, hcut, ofVector]

/-- **An integer is read with its sign** if it is declared signed or has 64 bits, else without. -/
theorem signedReading_vector (hpos : 0 < width.toNat) (hle : width.toNat ≤ 64)
    (v : BitVec width.toNat) : signedReading width signed (v.setWidth 64) =
      if signed ∨ width.toNat = 64 then v.toInt else v.toNat := by
  unfold signedReading
  by_cases hlt : width.toNat < 64
  · have hne : width.toNat ≠ 64 := by omega
    cases signed with
    | true => simp [hpos, hlt, setWidth_setWidth_vector hle]
    | false =>
      have hnat := toNat_setWidth_vector hle v
      have hsmall : v.toNat < 2 ^ 63 :=
        Nat.lt_of_lt_of_le v.isLt (Nat.pow_le_pow_right (by decide) (by omega))
      simp only [Bool.false_eq_true, false_and, if_false, hne, or_self]
      rw [BitVec.toInt_eq_toNat_cond, hnat, if_pos (by omega)]
  · have heq : width.toNat = 64 := by omega
    rw [if_neg (fun h => hlt h.2.2), if_pos (Or.inr heq), BitVec.toInt_setWidth,
      BitVec.toInt_eq_toNat_bmod v]
    simp only [heq]

end Scalar

/-! ## Operations on vectors -/

namespace Operation

section

variable {n : Nat}

/-- What an operation makes of a vector. -/
def unary? (a : BitVec n) : Operation → Option (BitVec n)
  | .sNegate => some (-a)
  | .not => some (~~~a)
  | _ => none

/-- What a conversion to `n` bits makes of a vector: it cuts it, or puts zeros or copies of the sign
bit above it. -/
def convert? {m : Nat} (a : BitVec m) (n : Nat) : Operation → Option (BitVec n)
  | .uConvert => some (a.setWidth n)
  | .sConvert => some (a.signExtend n)
  | _ => none

/-- Whether a vector can be divided by another one, both with signs. -/
def Divides (a b : BitVec n) : Prop := b ≠ 0 ∧ ¬ (a = .intMin n ∧ b = .allOnes n)

instance (a b : BitVec n) : Decidable (Divides a b) := inferInstanceAs (Decidable (_ ∧ _))

/-- What an operation makes of two vectors, where that is defined. -/
def binary? (a b : BitVec n) : Operation → Option (BitVec n)
  | .iAdd => some (a + b)
  | .iSub => some (a - b)
  | .iMul => some (a * b)
  | .bitwiseOr => some (a ||| b)
  | .bitwiseXor => some (a ^^^ b)
  | .bitwiseAnd => some (a &&& b)
  | .uDiv => if b ≠ 0 then some (a / b) else none
  | .uMod => if b ≠ 0 then some (a % b) else none
  | .sDiv => if Divides a b then some (a.sdiv b) else none
  | .sRem => if Divides a b then some (a.srem b) else none
  | .sMod => if Divides a b then some (a.smod b) else none
  | _ => none

/-- What a shift by a number of places makes of a vector, where that is defined. -/
def shift? (a : BitVec n) (places : Nat) : Operation → Option (BitVec n)
  | .shiftRightLogical => if places < n then some (a >>> places) else none
  | .shiftRightArithmetic => if places < n then some (a.sshiftRight places) else none
  | .shiftLeftLogical => if places < n then some (a <<< places) else none
  | _ => none

/-- What a comparison says about two vectors. -/
def comparison? (a b : BitVec n) : Operation → Option Bool
  | .iEqual => some (a == b)
  | .iNotEqual => some (a != b)
  | .uGreaterThan => some (b.ult a)
  | .sGreaterThan => some (b.slt a)
  | .uGreaterThanEqual => some (b.ule a)
  | .sGreaterThanEqual => some (b.sle a)
  | .uLessThan => some (a.ult b)
  | .sLessThan => some (a.slt b)
  | .uLessThanEqual => some (a.ule b)
  | .sLessThanEqual => some (a.sle b)
  | _ => none

end

/-- The operations for which it matters which number the sign bit stands for. -/
def isSigned : Operation → Bool
  | .sConvert | .sDiv | .sRem | .sMod | .shiftRightArithmetic => true
  | .sGreaterThan | .sGreaterThanEqual | .sLessThan | .sLessThanEqual => true
  | _ => false

/-! ## Operands -/

/-- The operand that an integer is. -/
def Operand.ofVector (width : Word) (signed : Bool) (v : BitVec width.toNat) : Operand :=
  ⟨v.setWidth 64, Scalar.signedReading width signed (v.setWidth 64)⟩

section

variable {width : Word} {s t : Bool} {a b : BitVec width.toNat}

theorem toNat_bits_ofVector (hle : width.toNat ≤ 64) (v : BitVec width.toNat) :
    (Operand.ofVector width s v).bits.toNat = v.toNat :=
  Scalar.toNat_setWidth_vector hle v

theorem setWidth_bits_ofVector (hle : width.toNat ≤ 64) (v : BitVec width.toNat) :
    (Operand.ofVector width s v).bits.setWidth width.toNat = v :=
  Scalar.setWidth_setWidth_vector hle v

theorem bits_ofVector_eq_zero_iff (hle : width.toNat ≤ 64) :
    (Operand.ofVector width s a).bits = 0 ↔ a = 0 := by
  rw [← BitVec.toNat_inj, ← BitVec.toNat_inj, toNat_bits_ofVector hle]
  simp

theorem signed_ofVector (hpos : 0 < width.toNat) (hle : width.toNat ≤ 64)
    (v : BitVec width.toNat) : (Operand.ofVector width s v).signed =
      if s ∨ width.toNat = 64 then v.toInt else v.toNat :=
  Scalar.signedReading_vector hpos hle v

theorem signed_ofVector_true (hpos : 0 < width.toNat) (hle : width.toNat ≤ 64)
    (v : BitVec width.toNat) : (Operand.ofVector width true v).signed = v.toInt := by
  rw [signed_ofVector hpos hle, if_pos (Or.inl rfl)]

/-- With a sign or without, an operand stands for its vector up to multiples of the modulus. -/
theorem ofInt_signed_ofVector (hpos : 0 < width.toNat) (hle : width.toNat ≤ 64)
    (v : BitVec width.toNat) :
    BitVec.ofInt width.toNat (Operand.ofVector width s v).signed = v := by
  rw [signed_ofVector hpos hle]
  split
  · exact BitVec.ofInt_toInt
  · rw [BitVec.ofInt_natCast, BitVec.ofNat_toNat, BitVec.setWidth_eq]

theorem signed_ofVector_eq_zero_iff (hpos : 0 < width.toNat) (hle : width.toNat ≤ 64) :
    (Operand.ofVector width s a).signed = 0 ↔ a = 0 := by
  constructor
  · intro h
    rw [← ofInt_signed_ofVector (s := s) hpos hle a, h]
    rfl
  · rintro rfl
    rw [signed_ofVector hpos hle]
    simp

/-- Only an integer of 64 bits can be the least number of 64 bits. -/
theorem signed_ofVector_eq_minSigned_iff (hpos : 0 < width.toNat) (hle : width.toNat ≤ 64) :
    (Operand.ofVector width s a).signed = minSigned ↔ width.toNat = 64 ∧ a = .intMin _ := by
  rw [signed_ofVector hpos hle, minSigned]
  by_cases hwide : width.toNat = 64
  · rw [if_pos (Or.inr hwide), ← BitVec.toInt_inj, BitVec.toInt_intMin_of_pos hpos]
    simp [hwide]
  · have hlow := BitVec.le_toInt a
    have hpow : (2 : Int) ^ (width.toNat - 1) ≤ 2 ^ 62 :=
      mod_cast Nat.pow_le_pow_right (by decide) (show width.toNat - 1 ≤ 62 by omega)
    refine iff_of_false (fun h => ?_) fun h => hwide h.1
    split at h <;> omega

theorem signed_ofVector_eq_neg_one_iff (hpos : 0 < width.toNat) (hwide : width.toNat = 64) :
    (Operand.ofVector width s a).signed = -1 ↔ a = .allOnes _ := by
  rw [signed_ofVector hpos (Nat.le_of_eq hwide), if_pos (Or.inr hwide), ← BitVec.toInt_inj,
    BitVec.toInt_allOnes, if_pos hpos]

/-- **Which quotients are refused**: those by zero, and that of the least number by minus one if
both have 64 bits. -/
theorem quotientFits_iff (hpos : 0 < width.toNat) (hle : width.toNat ≤ 64) :
    quotientFits (Operand.ofVector width s a).signed (Operand.ofVector width t b).signed = true ↔
      b ≠ 0 ∧ ¬ (width.toNat = 64 ∧ a = .intMin _ ∧ b = .allOnes _) := by
  rw [quotientFits, decide_eq_true_iff, ne_eq, signed_ofVector_eq_zero_iff hpos hle,
    signed_ofVector_eq_minSigned_iff hpos hle, and_assoc]
  refine and_congr_right fun _ => not_congr (and_congr_right fun hwide => ?_)
  refine and_congr_right fun _ => ?_
  exact signed_ofVector_eq_neg_one_iff hpos hwide

theorem quotientFits_of_divides (hpos : 0 < width.toNat) (hle : width.toNat ≤ 64)
    (h : Divides a b) : quotientFits (Operand.ofVector width s a).signed
      (Operand.ofVector width t b).signed = true :=
  (quotientFits_iff hpos hle).mpr ⟨h.1, fun hmin => h.2 hmin.2⟩

end

/-! ## Numbers that are cut -/

section

variable {n : Nat}

/-- The low-order bits of a number are those of the number in fewer bits. -/
theorem setWidth_ofInt (hle : n ≤ 64) (z : Int) :
    (BitVec.ofInt 64 z).setWidth n = BitVec.ofInt n z := by
  have hdvd : (2 ^ n : Nat) ∣ 2 ^ 64 := Nat.pow_dvd_pow 2 hle
  refine BitVec.eq_of_toInt_eq ?_
  rw [← BitVec.signExtend_eq_setWidth_of_le _ hle, BitVec.signExtend, BitVec.toInt_ofInt,
    BitVec.toInt_ofInt, BitVec.toInt_ofInt, Int.bmod_bmod_of_dvd hdvd]

/-- **A number is right once it is cut** if it is right up to multiples of the modulus. -/
theorem setWidth_eq_of_toInt (hle : n ≤ 64) {z : Int} {v : BitVec n}
    (h : v.toInt = z.bmod (2 ^ n)) : (BitVec.ofInt 64 z).setWidth n = v := by
  rw [setWidth_ofInt hle]
  exact BitVec.eq_of_toInt_eq (by rw [BitVec.toInt_ofInt, h])

/-- A number with the sign of the divisor is a remainder of a quotient that is rounded down. -/
theorem remainderOfDivisor_eq_fmod (a b : Int) : remainderOfDivisor a b = a.fmod b := by
  have hzero : b ∣ a ↔ a.tmod b = 0 := Int.dvd_iff_tmod_eq_zero
  have hnonneg : 0 ≤ a → 0 ≤ a.tmod b := Int.tmod_nonneg b
  have hnonpos : a ≤ 0 → a.tmod b ≤ 0 := fun h => by
    have hneg := Int.tmod_nonneg b (Int.neg_nonneg.mpr h)
    rw [Int.neg_tmod] at hneg
    omega
  unfold remainderOfDivisor
  rw [Int.fmod_eq_tmod]
  grind

end

/-! ## Folding -/

/-- **Integers are compared, or else computed with**; a result is cut to the width of its type. -/
theorem fold?_integers {opcode : Opcode} {op : Operation} (hop : ofOpcode? opcode = some op)
    (type : TypeDecl) {args : List Scalar} {operands : List Operand}
    (h : args.mapM Operand.ofScalar? = some operands) : fold? opcode type args =
      match op.compare? operands with
      | some b => some (.bool b)
      | none => (op.arithmetic? operands).bind (Scalar.ofIntBits? type) := by
  have hlogical : op.logical? args = none := by
    unfold logical?
    split
    all_goals first | rfl | cases h
  unfold fold?
  rw [hop, Option.bind_eq_bind, Option.bind_some, hlogical, h]
  rfl

end Operation

end ShaderReflect
