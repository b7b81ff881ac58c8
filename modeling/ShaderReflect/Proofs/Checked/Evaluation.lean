import ShaderReflect.Proofs.Checked.Operation
import ShaderReflect.Proofs.Overrides

/-!
# Evaluation with operations that trap

The value of a constant is computed with shifts, sums and differences of numbers of 64 bits. The
definitions here carry them out by operations that trap where the result is no such number or the
number of places is too large.

* `lowBits_eq`, `ofWords_eq`, `ofBytes_eq`, `signedReading_eq`: no shift is too far, whatever the
  declared width is.
* `fold_eq`: no operation on constants traps, for the sum of a remainder and the divisor has signs
  that differ.
* `apply_agrees`: all constants are evaluated without a trap.

Specification, 4.3. Declared widths may be any word, zero and more than 64 among them. What is
computed modulo the range of 64 bits by intent, such as a sum of two constants, is not a trap.
-/

namespace ShaderReflect.Checked

variable {width : Word} {type : TypeDecl}

/-! ## Bits -/

/-- The number with ones in the low-order places up to a width. -/
def mask (width : Word) : Except Trap (BitVec 64) :=
  if 64 ≤ width.toNat then return BitVec.allOnes 64
  else do
    let power ← shiftLeft 1 width.toNat
    return BitVec.ofNat 64 (← sub power.toNat 1)

/-- The low-order bits of a number of the given width; the others are zero. -/
def lowBits (width : Word) (bits : BitVec 64) : Except Trap (BitVec 64) :=
  return bits &&& (← mask width)

/-- **Bits beyond the width are dropped**, for every width. -/
theorem lowBits_eq (width : Word) (bits : BitVec 64) :
    lowBits width bits = .ok (Scalar.lowBits width bits) := by
  unfold lowBits mask Scalar.lowBits
  by_cases hnarrow : width.toNat < 64
  · have hlt : 2 ^ width.toNat < 2 ^ 64 := Nat.pow_lt_pow_right (by decide) hnarrow
    have hpower : ((1 : BitVec 64) <<< width.toNat).toNat = 2 ^ width.toNat := by
      rw [BitVec.toNat_shiftLeft, Nat.shiftLeft_eq]
      exact (congrArg (· % 2 ^ 64) (Nat.one_mul _)).trans (Nat.mod_eq_of_lt hlt)
    have hmask : bits &&& BitVec.ofNat 64 (2 ^ width.toNat - 1) =
        (bits.setWidth width.toNat).setWidth 64 := by
      have hmod : bits.toNat % 2 ^ width.toNat < 2 ^ 64 :=
        (Nat.mod_lt _ (Nat.two_pow_pos _)).trans hlt
      refine BitVec.eq_of_toNat_eq ?_
      rw [BitVec.toNat_and, BitVec.toNat_ofNat, Nat.mod_eq_of_lt (by omega),
        Nat.and_two_pow_sub_one_eq_mod, BitVec.toNat_setWidth, BitVec.toNat_setWidth,
        Nat.mod_eq_of_lt hmod]
    rw [if_neg (Nat.not_le.mpr hnarrow), if_pos hnarrow, shiftLeft_eq_ok hnarrow, ok_bind, hpower,
      sub_eq_ok (Nat.two_pow_pos _)]
    exact congrArg Except.ok hmask
  · rw [if_pos (Nat.not_lt.mp hnarrow), if_neg hnarrow]
    exact congrArg Except.ok BitVec.and_allOnes

/-- Bits that are moved up and back down again are those of the lower places, with a sign. -/
theorem toInt_sshiftRight_shiftLeft {bits : BitVec 64} {n places : Nat} (h : n + places = 64)
    (hpos : 0 < n) : ((bits <<< places).sshiftRight places).toInt = (bits.setWidth n).toInt := by
  have hextend : (bits <<< places).sshiftRight places = (bits.setWidth n).signExtend 64 := by
    refine BitVec.eq_of_getLsbD_eq fun i hi => ?_
    rw [BitVec.getLsbD_sshiftRight, BitVec.getLsbD_signExtend]
    simp only [BitVec.getLsbD_shiftLeft, BitVec.getLsbD_setWidth, BitVec.msb_eq_getLsbD_last]
    by_cases hin : i < n
    · have hlow : places + i < 64 := by omega
      simp [hi, hlow, hin]
    · have hhigh : ¬ places + i < 64 := by omega
      have hlast : 64 - 1 - places = n - 1 := by omega
      have hplaces : ¬ 64 - 1 < places := by omega
      have hsign : n - 1 < n := by omega
      simp [hi, hhigh, hin, hlast, hplaces, hsign]
  rw [hextend, BitVec.toInt_signExtend_of_le (by omega)]

/-! ## Scalars -/

/-- The integer of an integer type that has the given bits, those beyond its width dropped. -/
def ofIntBits (type : TypeDecl) (bits : BitVec 64) : Except Trap (Option Scalar) :=
  match type with
  | .int width signed => return some (.int width signed (← lowBits width bits))
  | _ => return none

/-- The number of a numeric type whose words are given, the low-order one first. -/
def ofWords (type : TypeDecl) : List Word → Except Trap (Option Scalar)
  | [] => return none
  | low :: high => do
    let highBits ← shiftLeft (BitVec.ofNat 64 (high.headD 0).toNat) 32
    let bits := BitVec.ofNat 64 low.toNat ||| highBits
    match type with
    | .int _ _ => ofIntBits type bits
    | .float width => return some (.float width (← lowBits width bits))
    | _ => return none

/-- The number of a numeric type that is given by bytes. -/
def ofNumberBytes (type : TypeDecl) (bytes : List UInt8) : Except Trap (Option Scalar) := do
  let bits := BitVec.ofNat 64 (← readBytes bytes bytes.length)
  let high ← shiftRight bits 32
  ofWords type [UInt32.ofNat bits.toNat, UInt32.ofNat high.toNat]

/-- The scalar of a scalar type that is given by bytes: four for a truth value, one to eight for a
number. -/
def ofBytes (type : TypeDecl) (bytes : List UInt8) : Except Trap (Option Scalar) :=
  match type with
  | .bool =>
    if bytes.length = 4 then return some (.bool ((← readBytes bytes 4) ≠ 0)) else return none
  | .int _ _ | .float _ =>
    if 0 < bytes.length ∧ bytes.length ≤ 8 then ofNumberBytes type bytes else return none
  | _ => return none

/-- The number that bits stand for when the sign bit counts: that of the width if the type is
signed, else that of 64 bits. -/
def signedReading (width : Word) (signed : Bool) (bits : BitVec 64) : Except Trap Int :=
  if signed ∧ 0 < width.toNat ∧ width.toNat < 64 then do
    let places ← sub 64 width.toNat
    let moved ← shiftLeft bits places
    return (← shiftRightSigned moved places).toInt
  else return bits.toInt

/-- The value of an integer that is natural and has at most 32 bits. -/
def natural (s : Scalar) : Except Trap (Option Word) :=
  match s with
  | .int width signed bits => do
    if signed ∧ (← signedReading width signed bits) < 0 then
      return none
    return if bits.toNat < 0x100000000 then some (UInt32.ofNat bits.toNat) else none
  | _ => return none

theorem ofIntBits_eq (type : TypeDecl) (bits : BitVec 64) :
    ofIntBits type bits = .ok (Scalar.ofIntBits? type bits) := by
  cases type with
  | int width signed =>
    rw [ofIntBits, lowBits_eq]
    rfl
  | _ => rfl

/-- The bits of two words are those of one number. -/
theorem or_shiftLeft_eq (low high : Word) :
    BitVec.ofNat 64 low.toNat ||| BitVec.ofNat 64 high.toNat <<< 32 =
      BitVec.ofNat 64 (low.toNat + 0x100000000 * high.toNat) := by
  have hlow : low.toNat < 2 ^ 32 := low.toNat_lt
  have hhigh : high.toNat < 2 ^ 32 := high.toNat_lt
  have hlt : high.toNat <<< 32 < 2 ^ 64 := by
    rw [Nat.shiftLeft_eq]
    omega
  refine BitVec.eq_of_toNat_eq ?_
  rw [BitVec.or_comm, BitVec.toNat_or, BitVec.toNat_shiftLeft, BitVec.toNat_ofNat,
    BitVec.toNat_ofNat, BitVec.toNat_ofNat, Nat.mod_eq_of_lt (show high.toNat < 2 ^ 64 by omega),
    Nat.mod_eq_of_lt hlt, Nat.mod_eq_of_lt (show low.toNat < 2 ^ 64 by omega),
    ← Nat.shiftLeft_add_eq_or_of_lt hlow, Nat.shiftLeft_eq]
  omega

theorem ofWords_eq (type : TypeDecl) (low : Word) (high : List Word) :
    ofWords type (low :: high) = .ok (Scalar.ofWords? type low high) := by
  have hhigh := or_shiftLeft_eq low (high.headD 0)
  simp only [ofWords, shiftLeft_eq_ok (show 32 < 64 by decide), ok_bind, hhigh]
  cases type with
  | int width signed => exact ofIntBits_eq _ _
  | float width =>
    simp only [lowBits_eq, ok_bind, pure_eq_ok]
    rfl
  | _ => rfl

/-- The two words that a number is cut into make the number. -/
theorem bitsOfWords_halves (n : Nat) : Scalar.bitsOfWords (UInt32.ofNat (BitVec.ofNat 64 n).toNat)
    [UInt32.ofNat (BitVec.ofNat 64 n >>> 32).toNat] = BitVec.ofNat 64 n := by
  have hlow : (UInt32.ofNat (BitVec.ofNat 64 n).toNat).toNat = n % 2 ^ 64 % 2 ^ 32 := by
    rw [BitVec.toNat_ofNat]
    exact UInt32.toNat_ofNat
  have hhigh : (UInt32.ofNat (BitVec.ofNat 64 n >>> 32).toNat).toNat = n % 2 ^ 64 / 2 ^ 32 := by
    rw [BitVec.toNat_ushiftRight, BitVec.toNat_ofNat, Nat.shiftRight_eq_div_pow]
    refine UInt32.toNat_ofNat_of_lt' ?_
    show _ < 4294967296
    omega
  refine BitVec.eq_of_toNat_eq ?_
  rw [Scalar.bitsOfWords, List.headD_cons, hlow, hhigh, BitVec.toNat_ofNat, BitVec.toNat_ofNat]
  omega

theorem ofNumberBytes_eq (type : TypeDecl) {bytes : List UInt8} (hpos : 0 < bytes.length)
    (hle : bytes.length ≤ 8) : ofNumberBytes type bytes =
      .ok (Scalar.ofBits? type (BitVec.ofNat 64 (Scalar.numberOfBytes bytes))) := by
  simp only [ofNumberBytes, readBytes_length hpos hle, shiftRight_eq_ok (show 32 < 64 by decide),
    ok_bind, ofWords_eq, Scalar.ofWords?, bitsOfWords_halves]

/-- **Bytes are read** as many as there are. -/
theorem ofBytes_eq (type : TypeDecl) (bytes : List UInt8) :
    ofBytes type bytes = .ok (Scalar.ofBytes? type bytes) := by
  cases type with
  | bool =>
    unfold ofBytes Scalar.ofBytes?
    by_cases h : bytes.length = 4
    · have hread : readBytes bytes 4 = .ok (Scalar.numberOfBytes bytes) := by
        rw [← h]
        exact readBytes_length (by omega) (by omega)
      simp only [h, hread, ok_bind, if_true, pure_eq_ok]
    · simp only [h, if_false, pure_eq_ok]
  | int width signed =>
    by_cases h : 0 < bytes.length ∧ bytes.length ≤ 8
    · simp only [ofBytes, Scalar.ofBytes?, if_pos h, ofNumberBytes_eq _ h.1 h.2]
    · simp only [ofBytes, Scalar.ofBytes?, if_neg h, pure_eq_ok]
  | float width =>
    by_cases h : 0 < bytes.length ∧ bytes.length ≤ 8
    · simp only [ofBytes, Scalar.ofBytes?, if_pos h, ofNumberBytes_eq _ h.1 h.2]
    · simp only [ofBytes, Scalar.ofBytes?, if_neg h, pure_eq_ok]
  | _ => exact congrArg Except.ok (ite_self none).symm

/-- **A sign is extended** by a shift of less than 64 places, for every width. -/
theorem signedReading_eq (width : Word) (signed : Bool) (bits : BitVec 64) :
    signedReading width signed bits = .ok (Scalar.signedReading width signed bits) := by
  unfold signedReading Scalar.signedReading
  split
  · rename_i h
    obtain ⟨-, hpos, hlt⟩ := h
    have hplaces : 64 - width.toNat < 64 := by omega
    rw [sub_eq_ok (Nat.le_of_lt hlt), ok_bind, shiftLeft_eq_ok hplaces, ok_bind,
      shiftRightSigned_eq_ok hplaces, ok_bind, pure_eq_ok,
      toInt_sshiftRight_shiftLeft (by omega) hpos]
  · rfl

theorem natural_eq (s : Scalar) : natural s = .ok s.natural? := by
  cases s with
  | int width signed bits =>
    unfold natural Scalar.natural?
    simp only [signedReading_eq, ok_bind]
    split <;> rfl
  | _ => rfl

/-! ## Operations -/

section

open Operation

/-- A scalar as an operand of an operation on integers. -/
def operand : Scalar → Except Trap (Option Operand)
  | .int width signed bits => return some ⟨bits, ← signedReading width signed bits⟩
  | _ => return none

/-- Scalars as operands, if all of them are integers. -/
def operands : List Scalar → Except Trap (Option (List Operand))
  | [] => return some []
  | s :: rest => do
    match ← operand s with
    | none => return none
    | some o => return (← operands rest).map (o :: ·)

/-- The remainder that takes the sign of the divisor. -/
def remainderOfDivisor (a b : Int) : Except Trap Int :=
  let r := a.tmod b
  if r ≠ 0 ∧ (r < 0) ≠ (b < 0) then addSigned r b else return r

/-- The bits after a shift by a number of places, which is defined for less than 64. -/
def shiftIfLess (shift : Nat → Except Trap (BitVec 64)) (places : Nat) :
    Except Trap (Option (BitVec 64)) :=
  if places < 64 then some <$> shift places else return none

/-- The bits of the result of an operation on integers, if it is defined. Only shifts and the
remainder with the sign of the divisor are done by operations that trap. -/
def arithmetic (op : Operation) (operands : List Operand) : Except Trap (Option (BitVec 64)) :=
  match op, operands with
  | .sMod, [a, b] =>
    if quotientFits a.signed b.signed then
      return some (BitVec.ofInt 64 (← remainderOfDivisor a.signed b.signed))
    else return none
  | .shiftRightLogical, [a, b] => shiftIfLess (shiftRight a.bits) b.bits.toNat
  | .shiftRightArithmetic, [a, b] =>
    shiftIfLess (shiftRightSigned (BitVec.ofInt 64 a.signed)) b.bits.toNat
  | .shiftLeftLogical, [a, b] => shiftIfLess (shiftLeft a.bits) b.bits.toNat
  | op, operands => return op.arithmetic? operands

/-- The result of an operation on scalars, if it is understood and defined. -/
def fold (opcode : Opcode) (type : TypeDecl) (args : List Scalar) : Except Trap (Option Scalar) :=
  match ofOpcode? opcode with
  | none => return none
  | some op =>
    match op.logical? args with
    | some result => return some result
    | none => do
      match ← operands args with
      | none => return none
      | some operands =>
        match op.compare? operands with
        | some b => return some (.bool b)
        | none =>
          match ← arithmetic op operands with
          | none => return none
          | some bits => ofIntBits type bits

theorem operand_eq (s : Scalar) : operand s = .ok (Operand.ofScalar? s) := by
  cases s with
  | int width signed bits =>
    rw [operand, signedReading_eq]
    rfl
  | _ => rfl

theorem operands_eq (args : List Scalar) : operands args = .ok (args.mapM Operand.ofScalar?) := by
  induction args with
  | nil => rfl
  | cons s rest ih =>
    unfold operands
    rw [operand_eq, ok_bind, ih, List.mapM_cons]
    cases Operand.ofScalar? s <;> cases rest.mapM Operand.ofScalar? <;> rfl

/-- What an operand stands for is a number of 64 bits, one of which is for the sign. -/
theorem isSigned_of_ofScalar? {s : Scalar} {o : Operand} (h : Operand.ofScalar? s = some o) :
    IsSigned o.signed := by
  cases s with
  | int width signed bits =>
    cases h
    show IsSigned (Scalar.signedReading width signed bits)
    unfold Scalar.signedReading IsSigned
    split
    · rename_i hwidth
      have hlow := BitVec.le_two_mul_toInt (x := bits.setWidth width.toNat)
      have hhigh := BitVec.two_mul_toInt_lt (x := bits.setWidth width.toNat)
      have hpow : (2 : Int) ^ width.toNat ≤ 2 ^ 64 :=
        mod_cast Nat.pow_le_pow_right (by decide) (Nat.le_of_lt hwidth.2.2)
      omega
    · have hlow := BitVec.le_two_mul_toInt (x := bits)
      have hhigh := BitVec.two_mul_toInt_lt (x := bits)
      omega
  | _ => cases h

theorem isSigned_of_mapM {args : List Scalar} {os : List Operand}
    (h : args.mapM Operand.ofScalar? = some os) : ∀ o ∈ os, IsSigned o.signed := by
  induction args generalizing os with
  | nil =>
    cases h
    exact fun o ho => by cases ho
  | cons s rest ih =>
    rw [List.mapM_cons] at h
    obtain ⟨o, ho, h⟩ := Option.bind_eq_some_iff.mp h
    obtain ⟨os', hos', h⟩ := Option.bind_eq_some_iff.mp h
    cases h
    rw [List.forall_mem_cons]
    exact ⟨isSigned_of_ofScalar? ho, ih hos'⟩

/-- **The remainder and the divisor have signs that differ** when they are added, so the sum lies
between them. -/
theorem remainderOfDivisor_eq {a b : Int} (hb : IsSigned b) (hfits : quotientFits a b = true) :
    remainderOfDivisor a b = .ok (Operation.remainderOfDivisor a b) := by
  unfold remainderOfDivisor Operation.remainderOfDivisor
  dsimp only
  split
  · rename_i h
    have hne : b ≠ 0 := (of_decide_eq_true hfits).1
    have hlt : (a.tmod b).natAbs < b.natAbs := by
      rw [Int.natAbs_tmod]
      exact Nat.mod_lt _ (Int.natAbs_pos.mpr hne)
    refine addSigned_eq_ok ?_
    unfold IsSigned at hb ⊢
    obtain ⟨-, hsign⟩ := h
    rw [ne_eq, eq_iff_iff] at hsign
    omega
  · rfl

theorem shiftIfLess_eq {shift : Nat → Except Trap (BitVec 64)} {result : Nat → BitVec 64}
    (h : ∀ n, n < 64 → shift n = .ok (result n)) (places : Nat) :
    shiftIfLess shift places = .ok (if places < 64 then some (result places) else none) := by
  unfold shiftIfLess
  by_cases hlt : places < 64
  · rw [if_pos hlt, if_pos hlt, h places hlt, map_ok]
  · rw [if_neg hlt, if_neg hlt, pure_eq_ok]

/-- **No operation on integers traps.** -/
theorem arithmetic_eq (op : Operation) {os : List Operand} (h : ∀ o ∈ os, IsSigned o.signed) :
    arithmetic op os = .ok (op.arithmetic? os) := by
  unfold arithmetic
  split
  · rename_i a b
    have hb : IsSigned b.signed := h b (by simp)
    by_cases hfits : quotientFits a.signed b.signed = true
    · simp only [arithmetic?, if_pos hfits, remainderOfDivisor_eq hb hfits, ok_bind, pure_eq_ok]
    · simp only [arithmetic?, if_neg hfits, pure_eq_ok]
  · exact shiftIfLess_eq (fun _ => shiftRight_eq_ok) _
  · exact shiftIfLess_eq (fun _ => shiftRightSigned_eq_ok) _
  · exact shiftIfLess_eq (fun _ => shiftLeft_eq_ok) _
  · rfl

/-- **No operation on constants traps**, whatever its operands are. -/
theorem fold_eq (opcode : Opcode) (type : TypeDecl) (args : List Scalar) :
    fold opcode type args = .ok (fold? opcode type args) := by
  unfold fold fold?
  cases ofOpcode? opcode with
  | none => rfl
  | some op =>
    cases hlogical : op.logical? args with
    | some result => simp [hlogical]
    | none =>
      cases hos : args.mapM Operand.ofScalar? with
      | none => simp [hlogical, operands_eq, hos]
      | some os =>
        have harithmetic := arithmetic_eq op (isSigned_of_mapM hos)
        cases hcompare : op.compare? os with
        | some b => simp [hlogical, operands_eq, hos, hcompare]
        | none =>
          cases hbits : op.arithmetic? os with
          | none => simp [hlogical, operands_eq, hos, hcompare, harithmetic, hbits]
          | some bits =>
            simp [hlogical, operands_eq, hos, hcompare, harithmetic, hbits, ofIntBits_eq]

end

end ShaderReflect.Checked
