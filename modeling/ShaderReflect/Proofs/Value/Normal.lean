import ShaderReflect.Proofs.Value.Vector

/-!
# Numbers without bits beyond their width

Where a number is made, the bits beyond its width are dropped, so that the others are zero
(`Scalar.IsNormal`). An operation on numbers yields one that is made in this way, or one of its
operands. An integer of at most 64 bits without further bits is read as what it stands for
(`Scalar.integerOf`).

* `Scalar.isNormal_of_ofWords?`, `Scalar.isNormal_of_ofBytes?`: numbers that are read.
* `isNormal_of_fold?`: numbers that are computed.
* `Scalar.signedReading_eq`: the sign bit counts where it should.
* `Scalar.natural?_eq_some_iff`, `Scalar.text_int`: the two readings of an integer.

An integer of no bits is the number zero, however it is declared. Truth values have no bits beyond
their width, as they are not kept as bits.
-/

namespace ShaderReflect

namespace Scalar

variable {type : TypeDecl} {width low : Word} {high : List Word} {bytes : List UInt8}
  {signed : Bool} {bits : BitVec 64} {x : Scalar}

/-- A number has no bits beyond its width. -/
def IsNormal : Scalar → Prop
  | .bool _ => True
  | .int width _ bits => bits.toNat < 2 ^ min width.toNat 64
  | .float width bits => bits.toNat < 2 ^ min width.toNat 64

/-- What the bits of an integer stand for: in two's complement if it is signed. -/
def integerOf (width : Word) (signed : Bool) (bits : BitVec 64) : Int :=
  if signed = true ∧ 2 ^ width.toNat ≤ 2 * bits.toNat then bits.toNat - 2 ^ width.toNat
  else bits.toNat

/-! ## Where numbers are made -/

theorem toNat_lowBits_lt : (lowBits width bits).toNat < 2 ^ min width.toNat 64 := by
  unfold lowBits
  by_cases hlt : width.toNat < 64
  · rw [if_pos hlt, Nat.min_eq_left (Nat.le_of_lt hlt), BitVec.toNat_setWidth]
    exact Nat.lt_of_le_of_lt (Nat.mod_le _ _) (BitVec.isLt _)
  · rw [if_neg hlt, Nat.min_eq_right (Nat.le_of_not_lt hlt)]
    exact bits.isLt

theorem isNormal_of_ofIntBits? (h : ofIntBits? type bits = some x) : x.IsNormal := by
  cases type with
  | int width signed =>
    cases h
    exact toNat_lowBits_lt
  | _ => cases h

theorem isNormal_of_ofBits? (h : ofBits? type bits = some x) : x.IsNormal := by
  unfold ofBits? at h
  split at h
  · cases h
    exact toNat_lowBits_lt
  · exact isNormal_of_ofIntBits? h

/-- **A literal** has no bits beyond its width, however many words it has. -/
theorem isNormal_of_ofWords? (h : ofWords? type low high = some x) : x.IsNormal :=
  isNormal_of_ofBits? h

/-- **An override** has no bits beyond its width. -/
theorem isNormal_of_ofBytes? (h : ofBytes? type bytes = some x) : x.IsNormal := by
  have hnumber (h : (if 0 < bytes.length ∧ bytes.length ≤ 8 then
      ofBits? type (BitVec.ofNat 64 (numberOfBytes bytes)) else none) = some x) : x.IsNormal := by
    obtain ⟨-, h⟩ := Option.ite_none_right_eq_some.mp h
    exact isNormal_of_ofBits? h
  cases type with
  | bool =>
    obtain ⟨-, h⟩ := Option.ite_none_right_eq_some.mp h
    cases h
    trivial
  | _ => exact hnumber h

/-! ## Readings -/

/-- **The sign bit counts** for what it should. -/
theorem signedReading_eq (hle : width.toNat ≤ 64) (h : bits.toNat < 2 ^ width.toNat) :
    signedReading width true bits = integerOf width true bits := by
  by_cases hpos : 0 < width.toNat
  · have hvector : ∃ v, Scalar.int width true bits = ofVector width true v := exists_ofVector h
    obtain ⟨v, hv⟩ := hvector
    obtain ⟨-, -, rfl⟩ := Scalar.int.inj hv
    rw [signedReading_vector hpos hle, if_pos (Or.inl rfl), integerOf, toNat_setWidth_vector hle,
      BitVec.toInt_eq_toNat_cond]
    by_cases hsmall : 2 * v.toNat < 2 ^ width.toNat
    · rw [if_pos hsmall, if_neg fun hlarge => Nat.not_le_of_lt hsmall hlarge.2]
    · rw [if_neg hsmall, if_pos ⟨rfl, Nat.le_of_not_lt hsmall⟩]
      norm_cast
  · -- An integer without bits is zero.
    have hzero : width.toNat = 0 := by omega
    rw [hzero] at h
    obtain rfl : bits = 0#64 := BitVec.eq_of_toNat_eq (by simpa using h)
    simp [signedReading, integerOf, hzero]

theorem integerOf_true_neg_iff (h : bits.toNat < 2 ^ width.toNat) :
    integerOf width true bits < 0 ↔ 2 ^ width.toNat ≤ 2 * bits.toNat := by
  unfold integerOf
  by_cases hlarge : 2 ^ width.toNat ≤ 2 * bits.toNat
  · rw [if_pos ⟨rfl, hlarge⟩]
    have hcast : (bits.toNat : Int) < 2 ^ width.toNat := by exact_mod_cast h
    exact iff_of_true (by omega) hlarge
  · rw [if_neg fun hcond => hlarge hcond.2]
    exact iff_of_false (by omega) hlarge

/-- **A client gets an integer** exactly if it is natural and has at most 32 bits. -/
theorem natural?_eq_some_iff (hle : width.toNat ≤ 64) (h : bits.toNat < 2 ^ width.toNat)
    {n : Word} :
    natural? (.int width signed bits) = some n ↔ integerOf width signed bits = n.toNat := by
  have hbits :
      (if bits.toNat < 0x100000000 then some (UInt32.ofNat bits.toNat) else none) = some n ↔
        (bits.toNat : Int) = n.toNat := by
    rw [Option.ite_none_right_eq_some, Option.some.injEq, Int.natCast_inj]
    constructor
    · rintro ⟨hlt, rfl⟩
      exact (UInt32.toNat_ofNat_of_lt' hlt).symm
    · intro heq
      rw [heq, UInt32.ofNat_toNat]
      exact ⟨n.toNat_lt, rfl⟩
  simp only [natural?]
  by_cases hneg : signed = true ∧ signedReading width signed bits < 0
  · obtain ⟨rfl, hneg⟩ := hneg
    rw [if_pos ⟨rfl, hneg⟩]
    rw [signedReading_eq hle h] at hneg
    exact iff_of_false (by simp) (by omega)
  · rw [if_neg hneg, hbits, integerOf, if_neg]
    rintro ⟨rfl, hlarge⟩
    rw [signedReading_eq hle h, integerOf_true_neg_iff h] at hneg
    exact hneg ⟨rfl, hlarge⟩

/-- **An integer is written** in decimal. -/
theorem text_int (hle : width.toNat ≤ 64) (h : bits.toNat < 2 ^ width.toNat) :
    text (.int width signed bits) = toString (integerOf width signed bits) := by
  cases signed with
  | true => rw [text, signedReading_eq hle h]
  | false =>
    rw [text, integerOf, if_neg (by simp)]
    rfl

end Scalar

/-! ## Operations -/

variable {type : TypeDecl} {args : List Scalar} {x : Scalar}

/-- An operation on truth values yields a truth value, and a choice one of the two operands. -/
theorem Operation.isNormal_of_logical? {op : Operation} (hargs : ∀ a ∈ args, a.IsNormal)
    (h : op.logical? args = some x) : x.IsNormal := by
  unfold logical? at h
  split at h
  case h_6 c a b =>
    -- The choice, which is the only one that yields an operand.
    cases h
    cases c with
    | true => exact hargs a (by simp)
    | false => exact hargs b (by simp)
  case h_7 => cases h
  all_goals
    cases h
    trivial

/-- **The result of an operation** has no bits beyond its width. -/
theorem isNormal_of_fold? {opcode : Opcode} (hargs : ∀ a ∈ args, a.IsNormal)
    (h : fold? opcode type args = some x) : x.IsNormal := by
  unfold fold? at h
  obtain ⟨op, -, h⟩ := Option.bind_eq_some_iff.mp h
  cases hlogical : op.logical? args with
  | some y =>
    rw [hlogical] at h
    cases h
    exact Operation.isNormal_of_logical? hargs hlogical
  | none =>
    rw [hlogical] at h
    obtain ⟨operands, -, h⟩ := Option.bind_eq_some_iff.mp h
    cases hcompare : op.compare? operands with
    | some b =>
      rw [hcompare] at h
      cases h
      trivial
    | none =>
      rw [hcompare] at h
      obtain ⟨bits, -, h⟩ := Option.bind_eq_some_iff.mp h
      exact Scalar.isNormal_of_ofIntBits? h

end ShaderReflect
