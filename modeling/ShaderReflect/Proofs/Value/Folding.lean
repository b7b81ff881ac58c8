import ShaderReflect.Proofs.Value.Vector

/-!
# Folding is arithmetic of a width

An operation on integers of a width computes with 64 bits, into which the integers are put with
zeros or with copies of their sign bits above them. Once the result is cut to its width, it is that
of the operation on vectors of the width (specification, 4.3).

The operations are told by their opcodes: `Operation.FoldsExactly` has a rule for each shape of
operands, with a list of opcodes and of what each of them makes of vectors. So it also says that
these opcodes fold at all, and the table by which opcodes are looked up (`Operation.table`) has no
part in the statement. Conversions take an integer of any width up to 64, and the amount of a shift
may have any.

What is refused is another matter: the checks are those of 64 bits, whatever the width. The least
number of a narrow width divided by minus one, and a narrow number shifted by its width or more,
have results that are not defined, and fold all the same.

Results:
* `Operation.fold?_unary`, `Operation.fold?_convert`, `Operation.fold?_binary`,
  `Operation.fold?_shift`, `Operation.fold?_comparison`: each shape of operands.
* `Operation.fold_exact`: what an operation makes of vectors is what integers fold to.
* `Operation.fold_undefined_iff`: which of the undefined quotients, remainders and shifts have no
  result.
-/

namespace ShaderReflect

namespace Operation

variable {width source : Word} {s t : Bool} {a b v : BitVec width.toNat} {op : Operation}

/-! ## Results -/

theorem arithmetic?_unary (hpos : 0 < width.toNat) (hle : width.toNat ≤ 64)
    (h : op.unary? a = some v) : op.compare? [.ofVector width s a] = none ∧
      ∃ bits, op.arithmetic? [.ofVector width s a] = some bits ∧ bits.setWidth width.toNat = v := by
  cases op with
  | sNegate =>
    cases h
    refine ⟨rfl, _, rfl, ?_⟩
    rw [setWidth_ofInt hle, BitVec.ofInt_neg, ofInt_signed_ofVector hpos hle]
  | not =>
    cases h
    exact ⟨rfl, _, rfl, by rw [BitVec.setWidth_not hle, setWidth_bits_ofVector hle]⟩
  | _ => cases h

theorem arithmetic?_convert (hpos : 0 < source.toNat) (hsource : source.toNat ≤ 64)
    (hle : width.toNat ≤ 64) {a : BitVec source.toNat} (hs : op.isSigned = true → s = true)
    (h : op.convert? a width.toNat = some v) : op.compare? [.ofVector source s a] = none ∧
      ∃ bits, op.arithmetic? [.ofVector source s a] = some bits ∧
        bits.setWidth width.toNat = v := by
  cases op with
  | uConvert =>
    cases h
    refine ⟨rfl, _, rfl, BitVec.eq_of_toNat_eq ?_⟩
    rw [BitVec.toNat_setWidth, toNat_bits_ofVector hsource, BitVec.toNat_setWidth]
  | sConvert =>
    cases h
    obtain rfl := hs rfl
    refine ⟨rfl, _, rfl, ?_⟩
    rw [setWidth_ofInt hle, signed_ofVector_true hpos hsource, BitVec.signExtend]
  | _ => cases h

theorem arithmetic?_binary (hpos : 0 < width.toNat) (hle : width.toNat ≤ 64)
    (hs : op.isSigned = true → s = true ∧ t = true) (h : op.binary? a b = some v) :
    op.compare? [.ofVector width s a, .ofVector width t b] = none ∧
      ∃ bits, op.arithmetic? [.ofVector width s a, .ofVector width t b] = some bits ∧
        bits.setWidth width.toNat = v := by
  have ha := setWidth_bits_ofVector (s := s) hle a
  have hb := setWidth_bits_ofVector (s := t) hle b
  have han := toNat_bits_ofVector (s := s) hle a
  have hbn := toNat_bits_ofVector (s := t) hle b
  cases op with
  | iAdd =>
    cases h
    exact ⟨rfl, _, rfl, by rw [BitVec.setWidth_add _ _ hle, ha, hb]⟩
  | iSub =>
    cases h
    refine ⟨rfl, _, rfl, ?_⟩
    rw [BitVec.sub_eq_add_neg, BitVec.setWidth_add _ _ hle, BitVec.setWidth_neg_of_le hle, ha, hb,
      BitVec.sub_eq_add_neg]
  | iMul =>
    cases h
    exact ⟨rfl, _, rfl, by rw [BitVec.setWidth_mul _ _ hle, ha, hb]⟩
  | bitwiseOr =>
    cases h
    exact ⟨rfl, _, rfl, by rw [BitVec.setWidth_or, ha, hb]⟩
  | bitwiseXor =>
    cases h
    exact ⟨rfl, _, rfl, by rw [BitVec.setWidth_xor, ha, hb]⟩
  | bitwiseAnd =>
    cases h
    exact ⟨rfl, _, rfl, by rw [BitVec.setWidth_and, ha, hb]⟩
  | uDiv =>
    obtain ⟨hne, ⟨⟩⟩ := Option.ite_none_right_eq_some.mp h
    refine ⟨rfl, _, if_neg (mt (bits_ofVector_eq_zero_iff hle).mp hne), BitVec.eq_of_toNat_eq ?_⟩
    rw [BitVec.toNat_setWidth, BitVec.toNat_udiv, BitVec.toNat_udiv, han, hbn]
    exact Nat.mod_eq_of_lt (Nat.lt_of_le_of_lt (Nat.div_le_self _ _) a.isLt)
  | uMod =>
    obtain ⟨hne, ⟨⟩⟩ := Option.ite_none_right_eq_some.mp h
    refine ⟨rfl, _, if_neg (mt (bits_ofVector_eq_zero_iff hle).mp hne), BitVec.eq_of_toNat_eq ?_⟩
    rw [BitVec.toNat_setWidth, BitVec.toNat_umod, BitVec.toNat_umod, han, hbn]
    exact Nat.mod_eq_of_lt (Nat.lt_of_le_of_lt (Nat.mod_le _ _) a.isLt)
  | sDiv =>
    obtain ⟨hdiv, ⟨⟩⟩ := Option.ite_none_right_eq_some.mp h
    obtain ⟨rfl, rfl⟩ := hs rfl
    refine ⟨rfl, _, if_pos (quotientFits_of_divides hpos hle hdiv), setWidth_eq_of_toInt hle ?_⟩
    rw [signed_ofVector_true hpos hle, signed_ofVector_true hpos hle, BitVec.toInt_sdiv]
  | sRem =>
    obtain ⟨hdiv, ⟨⟩⟩ := Option.ite_none_right_eq_some.mp h
    obtain ⟨rfl, rfl⟩ := hs rfl
    refine ⟨rfl, _, if_pos (quotientFits_of_divides hpos hle hdiv), ?_⟩
    rw [setWidth_ofInt hle, signed_ofVector_true hpos hle, signed_ofVector_true hpos hle,
      ← BitVec.toInt_srem, BitVec.ofInt_toInt]
  | sMod =>
    obtain ⟨hdiv, ⟨⟩⟩ := Option.ite_none_right_eq_some.mp h
    obtain ⟨rfl, rfl⟩ := hs rfl
    refine ⟨rfl, _, if_pos (quotientFits_of_divides hpos hle hdiv), ?_⟩
    rw [setWidth_ofInt hle, remainderOfDivisor_eq_fmod, signed_ofVector_true hpos hle,
      signed_ofVector_true hpos hle, ← BitVec.toInt_smod, BitVec.ofInt_toInt]
  | _ => cases h

theorem arithmetic?_shift (hpos : 0 < width.toNat) (hle : width.toNat ≤ 64) {places : Operand}
    (hs : op.isSigned = true → s = true) (h : op.shift? a places.bits.toNat = some v) :
    op.compare? [.ofVector width s a, places] = none ∧
      ∃ bits, op.arithmetic? [.ofVector width s a, places] = some bits ∧
        bits.setWidth width.toNat = v := by
  cases op with
  | shiftRightLogical =>
    obtain ⟨hlt, ⟨⟩⟩ := Option.ite_none_right_eq_some.mp h
    refine ⟨rfl, _, if_pos (by omega), BitVec.eq_of_toNat_eq ?_⟩
    rw [BitVec.toNat_setWidth, BitVec.toNat_ushiftRight, BitVec.toNat_ushiftRight,
      toNat_bits_ofVector hle]
    exact Nat.mod_eq_of_lt (Nat.lt_of_le_of_lt (Nat.shiftRight_le _ _) a.isLt)
  | shiftRightArithmetic =>
    obtain ⟨hlt, ⟨⟩⟩ := Option.ite_none_right_eq_some.mp h
    obtain rfl := hs rfl
    have hextend : (BitVec.ofInt 64 a.toInt).toInt = a.toInt := BitVec.toInt_signExtend_of_le hle
    refine ⟨rfl, _, if_pos (by omega), ?_⟩
    rw [signed_ofVector_true hpos hle,
      ← BitVec.ofInt_toInt (x := (BitVec.ofInt 64 a.toInt).sshiftRight places.bits.toNat),
      BitVec.toInt_sshiftRight, hextend, setWidth_ofInt hle, ← BitVec.toInt_sshiftRight,
      BitVec.ofInt_toInt]
  | shiftLeftLogical =>
    obtain ⟨hlt, ⟨⟩⟩ := Option.ite_none_right_eq_some.mp h
    refine ⟨rfl, _, if_pos (by omega), ?_⟩
    rw [BitVec.setWidth_shiftLeft_of_le hle, setWidth_bits_ofVector hle]
  | _ => cases h

theorem compare?_vectors (hpos : 0 < width.toNat) (hle : width.toNat ≤ 64)
    (hs : op.isSigned = true → s = true ∧ t = true) {c : Bool} (h : op.comparison? a b = some c) :
    op.compare? [.ofVector width s a, .ofVector width t b] = some c := by
  have hbits : (Operand.ofVector width s a).bits = (Operand.ofVector width t b).bits ↔ a = b := by
    rw [← BitVec.toNat_inj, ← BitVec.toNat_inj, toNat_bits_ofVector hle, toNat_bits_ofVector hle]
  cases op with
  | iEqual | iNotEqual =>
    rw [← h, compare?]
    simp only [comparison?, bne, beq_eq_decide, hbits]
  | uGreaterThan | uGreaterThanEqual | uLessThan | uLessThanEqual =>
    rw [← h, compare?, toNat_bits_ofVector hle, toNat_bits_ofVector hle]
    rfl
  | sGreaterThan | sGreaterThanEqual | sLessThan | sLessThanEqual =>
    obtain ⟨rfl, rfl⟩ := hs rfl
    rw [← h, compare?, signed_ofVector_true hpos hle, signed_ofVector_true hpos hle]
    rfl
  | _ => cases h

/-! ## Folding -/

section

variable {opcode : Opcode} {type : TypeDecl} {args : List Scalar} {operands : List Operand}

/-- What is computed with integers is the result, once it is cut. -/
theorem fold?_of_arithmetic? (hle : width.toNat ≤ 64) (hop : ofOpcode? opcode = some op)
    (hargs : args.mapM Operand.ofScalar? = some operands)
    (h : op.compare? operands = none ∧
      ∃ bits, op.arithmetic? operands = some bits ∧ bits.setWidth width.toNat = v) :
    fold? opcode (.int width s) args = some (.ofVector width s v) := by
  obtain ⟨hcompare, bits, hbits, rfl⟩ := h
  rw [fold?_integers hop _ hargs, hcompare, hbits]
  exact Scalar.ofIntBits?_vector hle bits

theorem fold?_unary (hpos : 0 < width.toNat) (hle : width.toNat ≤ 64)
    (hop : ofOpcode? opcode = some op) (h : op.unary? a = some v) :
    fold? opcode (.int width t) [.ofVector width s a] = some (.ofVector width t v) :=
  fold?_of_arithmetic? hle hop rfl (arithmetic?_unary hpos hle h)

theorem fold?_convert (hpos : 0 < source.toNat) (hsource : source.toNat ≤ 64)
    (hle : width.toNat ≤ 64) {a : BitVec source.toNat} (hop : ofOpcode? opcode = some op)
    (hs : op.isSigned = true → s = true) (h : op.convert? a width.toNat = some v) :
    fold? opcode (.int width t) [.ofVector source s a] = some (.ofVector width t v) :=
  fold?_of_arithmetic? hle hop rfl (arithmetic?_convert hpos hsource hle hs h)

theorem fold?_binary {signed : Bool} (hpos : 0 < width.toNat) (hle : width.toNat ≤ 64)
    (hop : ofOpcode? opcode = some op) (hs : op.isSigned = true → s = true ∧ t = true)
    (h : op.binary? a b = some v) :
    fold? opcode (.int width signed) [.ofVector width s a, .ofVector width t b] =
      some (.ofVector width signed v) :=
  fold?_of_arithmetic? hle hop rfl (arithmetic?_binary hpos hle hs h)

theorem fold?_shift {signed : Bool} {places : BitVec 64} (hpos : 0 < width.toNat)
    (hle : width.toNat ≤ 64) (hop : ofOpcode? opcode = some op)
    (hs : op.isSigned = true → s = true) (h : op.shift? a places.toNat = some v) :
    fold? opcode (.int width signed) [.ofVector width s a, .int source t places] =
      some (.ofVector width signed v) :=
  fold?_of_arithmetic? hle hop rfl (arithmetic?_shift hpos hle hs h)

theorem fold?_comparison (hpos : 0 < width.toNat) (hle : width.toNat ≤ 64)
    (hop : ofOpcode? opcode = some op) (hs : op.isSigned = true → s = true ∧ t = true) {c : Bool}
    (h : op.comparison? a b = some c) :
    fold? opcode type [.ofVector width s a, .ofVector width t b] = some (.bool c) := by
  have hargs : [.ofVector width s a, .ofVector width t b].mapM Operand.ofScalar? =
      some [.ofVector width s a, .ofVector width t b] := rfl
  rw [fold?_integers hop type hargs, compare?_vectors hpos hle hs h]

/-- **The opcodes of operations on integers, and what they fold to.** Operands are the integers
without bits beyond their width (`Scalar.exists_ofVector`), and the result is declared as its type
is (`signed`). Where an operation is signed, its operands are declared signed; others may be
declared either way. -/
structure FoldsExactly (width : Word) (signed : Bool) : Prop where
  /-- The opposite and the complement. -/
  unary : ∀ p ∈ [((126 : Opcode), fun a : BitVec width.toNat => -a), (200, fun a => ~~~a)],
    ∀ s a, fold? p.1 (.int width signed) [.ofVector width s a] =
      some (.ofVector width signed (p.2 a))
  /-- The conversion that puts zeros above a vector or cuts it, from any width. -/
  convertUnsigned : ∀ source : Word, 0 < source.toNat → source.toNat ≤ 64 →
    ∀ s (a : BitVec source.toNat), fold? 113 (.int width signed) [.ofVector source s a] =
      some (.ofVector width signed (a.setWidth width.toNat))
  /-- The conversion that puts copies of the sign bit above a vector or cuts it. -/
  convertSigned : ∀ source : Word, 0 < source.toNat → source.toNat ≤ 64 →
    ∀ a : BitVec source.toNat, fold? 114 (.int width signed) [.ofVector source true a] =
      some (.ofVector width signed (a.signExtend width.toNat))
  /-- Sums, differences, products and the bitwise operations. -/
  binary : ∀ p ∈ [((128 : Opcode), fun a b : BitVec width.toNat => a + b),
      (130, fun a b => a - b), (132, fun a b => a * b), (197, fun a b => a ||| b),
      (198, fun a b => a ^^^ b), (199, fun a b => a &&& b)],
    ∀ s t a b, fold? p.1 (.int width signed) [.ofVector width s a, .ofVector width t b] =
      some (.ofVector width signed (p.2 a b))
  /-- Quotients and remainders without signs. -/
  divideUnsigned : ∀ p ∈ [((134 : Opcode), fun a b : BitVec width.toNat => a / b),
      (137, fun a b => a % b)],
    ∀ s t a b, b ≠ 0 →
      fold? p.1 (.int width signed) [.ofVector width s a, .ofVector width t b] =
        some (.ofVector width signed (p.2 a b))
  /-- The quotient that is rounded towards zero, the remainder with the sign of the dividend, and
  the remainder with that of the divisor. -/
  divideSigned : ∀ p ∈ [((135 : Opcode), BitVec.sdiv (n := width.toNat)), (138, BitVec.srem),
      (139, BitVec.smod)],
    ∀ a b, b ≠ 0 → ¬ (a = .intMin _ ∧ b = .allOnes _) →
      fold? p.1 (.int width signed) [.ofVector width true a, .ofVector width true b] =
        some (.ofVector width signed (p.2 a b))
  /-- Shifts to the right with zeros, and to the left. The amount may be of any width, since it
  counts as a plain number. -/
  shiftLogical : ∀ p ∈ [((194 : Opcode), fun (a : BitVec width.toNat) (k : Nat) => a >>> k),
      (196, fun a k => a <<< k)],
    ∀ s a source t (places : BitVec 64), places.toNat < width.toNat →
      fold? p.1 (.int width signed) [.ofVector width s a, .int source t places] =
        some (.ofVector width signed (p.2 a places.toNat))
  /-- The shift to the right with copies of the sign bit. -/
  shiftArithmetic : ∀ a source t (places : BitVec 64), places.toNat < width.toNat →
    fold? 195 (.int width signed) [.ofVector width true a, .int source t places] =
      some (.ofVector width signed (a.sshiftRight places.toNat))
  /-- Whether vectors are equal, or different, and how they compare as numbers without signs. -/
  compareUnsigned : ∀ p ∈ [((170 : Opcode), fun a b : BitVec width.toNat => decide (a = b)),
      (171, fun a b => !decide (a = b)), (172, fun a b => decide (a.toNat > b.toNat)),
      (174, fun a b => decide (a.toNat ≥ b.toNat)), (176, fun a b => decide (a.toNat < b.toNat)),
      (178, fun a b => decide (a.toNat ≤ b.toNat))],
    ∀ type s t a b, fold? p.1 type [.ofVector width s a, .ofVector width t b] =
      some (.bool (p.2 a b))
  /-- How vectors compare as numbers with signs. -/
  compareSigned : ∀ p ∈ [((173 : Opcode), fun a b : BitVec width.toNat =>
        decide (a.toInt > b.toInt)), (175, fun a b => decide (a.toInt ≥ b.toInt)),
      (177, fun a b => decide (a.toInt < b.toInt)), (179, fun a b => decide (a.toInt ≤ b.toInt))],
    ∀ type a b, fold? p.1 type [.ofVector width true a, .ofVector width true b] =
      some (.bool (p.2 a b))

/-- **Folding is arithmetic of a width**, from one bit to 64. -/
theorem fold_exact (hpos : 0 < width.toNat) (hle : width.toNat ≤ 64) (signed : Bool) :
    FoldsExactly width signed where
  unary := by
    intro p hp s a
    simp only [List.mem_cons, List.not_mem_nil, or_false] at hp
    rcases hp with rfl | rfl
    · exact fold?_unary hpos hle (show ofOpcode? 126 = some .sNegate by decide) rfl
    · exact fold?_unary hpos hle (show ofOpcode? 200 = some .not by decide) rfl
  convertUnsigned source hspos hsource s a :=
    fold?_convert hspos hsource hle (show ofOpcode? 113 = some .uConvert by decide) nofun rfl
  convertSigned source hspos hsource a :=
    fold?_convert hspos hsource hle (show ofOpcode? 114 = some .sConvert by decide)
      (fun _ => rfl) rfl
  binary := by
    intro p hp s t a b
    simp only [List.mem_cons, List.not_mem_nil, or_false] at hp
    rcases hp with rfl | rfl | rfl | rfl | rfl | rfl
    · exact fold?_binary hpos hle (show ofOpcode? 128 = some .iAdd by decide) nofun rfl
    · exact fold?_binary hpos hle (show ofOpcode? 130 = some .iSub by decide) nofun rfl
    · exact fold?_binary hpos hle (show ofOpcode? 132 = some .iMul by decide) nofun rfl
    · exact fold?_binary hpos hle (show ofOpcode? 197 = some .bitwiseOr by decide) nofun rfl
    · exact fold?_binary hpos hle (show ofOpcode? 198 = some .bitwiseXor by decide) nofun rfl
    · exact fold?_binary hpos hle (show ofOpcode? 199 = some .bitwiseAnd by decide) nofun rfl
  divideUnsigned := by
    intro p hp s t a b hb
    simp only [List.mem_cons, List.not_mem_nil, or_false] at hp
    rcases hp with rfl | rfl
    · exact fold?_binary hpos hle (show ofOpcode? 134 = some .uDiv by decide) nofun (if_pos hb)
    · exact fold?_binary hpos hle (show ofOpcode? 137 = some .uMod by decide) nofun (if_pos hb)
  divideSigned := by
    intro p hp a b hb hmin
    simp only [List.mem_cons, List.not_mem_nil, or_false] at hp
    have hdivides : Divides a b := ⟨hb, hmin⟩
    rcases hp with rfl | rfl | rfl
    · exact fold?_binary hpos hle (show ofOpcode? 135 = some .sDiv by decide)
        (fun _ => ⟨rfl, rfl⟩) (if_pos hdivides)
    · exact fold?_binary hpos hle (show ofOpcode? 138 = some .sRem by decide)
        (fun _ => ⟨rfl, rfl⟩) (if_pos hdivides)
    · exact fold?_binary hpos hle (show ofOpcode? 139 = some .sMod by decide)
        (fun _ => ⟨rfl, rfl⟩) (if_pos hdivides)
  shiftLogical := by
    intro p hp s a source t places hlt
    simp only [List.mem_cons, List.not_mem_nil, or_false] at hp
    rcases hp with rfl | rfl
    · exact fold?_shift hpos hle (show ofOpcode? 194 = some .shiftRightLogical by decide) nofun
        (if_pos hlt)
    · exact fold?_shift hpos hle (show ofOpcode? 196 = some .shiftLeftLogical by decide) nofun
        (if_pos hlt)
  shiftArithmetic a source t places hlt :=
    fold?_shift hpos hle (show ofOpcode? 195 = some .shiftRightArithmetic by decide)
      (fun _ => rfl) (if_pos hlt)
  compareUnsigned := by
    intro p hp type s t a b
    simp only [List.mem_cons, List.not_mem_nil, or_false] at hp
    rcases hp with rfl | rfl | rfl | rfl | rfl | rfl
    · exact fold?_comparison hpos hle (show ofOpcode? 170 = some .iEqual by decide) nofun rfl
    · exact fold?_comparison hpos hle (show ofOpcode? 171 = some .iNotEqual by decide) nofun rfl
    · exact fold?_comparison hpos hle (show ofOpcode? 172 = some .uGreaterThan by decide) nofun rfl
    · exact fold?_comparison hpos hle (show ofOpcode? 174 = some .uGreaterThanEqual by decide) nofun
        rfl
    · exact fold?_comparison hpos hle (show ofOpcode? 176 = some .uLessThan by decide) nofun rfl
    · exact fold?_comparison hpos hle (show ofOpcode? 178 = some .uLessThanEqual by decide) nofun
        rfl
  compareSigned := by
    intro p hp type a b
    simp only [List.mem_cons, List.not_mem_nil, or_false] at hp
    rcases hp with rfl | rfl | rfl | rfl
    · exact fold?_comparison hpos hle (show ofOpcode? 173 = some .sGreaterThan by decide)
        (fun _ => ⟨rfl, rfl⟩) rfl
    · exact fold?_comparison hpos hle (show ofOpcode? 175 = some .sGreaterThanEqual by decide)
        (fun _ => ⟨rfl, rfl⟩) rfl
    · exact fold?_comparison hpos hle (show ofOpcode? 177 = some .sLessThan by decide)
        (fun _ => ⟨rfl, rfl⟩) rfl
    · exact fold?_comparison hpos hle (show ofOpcode? 179 = some .sLessThanEqual by decide)
        (fun _ => ⟨rfl, rfl⟩) rfl

/-- One operation of each shape: the remainder of -7 by 3 takes the sign of the divisor, and 16 is
the least number of five bits. -/
theorem sample_fold_exact :
    fold? 126 (.int 5 true) [.ofVector 5 true 16] = some (.ofVector 5 true 16) ∧
    fold? 114 (.int 32 true) [.ofVector 5 true 16] = some (.ofVector 32 true 0xfffffff0) ∧
    fold? 139 (.int 32 true) [.ofVector 32 true (-7), .ofVector 32 true 3] =
      some (.ofVector 32 true 2) ∧
    fold? 195 (.int 5 true) [.ofVector 5 true 16, .int 64 false 4] =
      some (.ofVector 5 true 31) ∧
    fold? 177 .bool [.ofVector 64 true (-1), .ofVector 64 true 0] = some (.bool true) := by
  refine ⟨?_, ?_, ?_, ?_, ?_⟩
  · exact (fold_exact (by decide) (by decide) true).unary _ List.mem_cons_self true 16
  · exact (fold_exact (by decide) (by decide) true).convertSigned 5 (by decide) (by decide) 16
  · exact (fold_exact (by decide) (by decide) true).divideSigned (139, BitVec.smod) (by simp)
      (-7) 3 (by decide) (by decide)
  · exact (fold_exact (by decide) (by decide) true).shiftArithmetic 16 64 false 4 (by decide)
  · exact (fold_exact (by decide) (by decide) true).compareSigned
      (177, fun a b => decide (a.toInt < b.toInt)) (by simp) .bool (-1) 0

/-! ## Operations that are undefined -/

/-- The quotients and remainders. -/
def isDivision : Operation → Bool
  | .uDiv | .uMod | .sDiv | .sRem | .sMod => true
  | _ => false

/-- The shifts. -/
def isShift : Operation → Bool
  | .shiftRightLogical | .shiftRightArithmetic | .shiftLeftLogical => true
  | _ => false

/-- Nothing is the result exactly if nothing is computed. -/
theorem fold?_eq_none_iff (hop : ofOpcode? opcode = some op)
    (hargs : args.mapM Operand.ofScalar? = some operands) (h : op.compare? operands = none) :
    fold? opcode (.int width s) args = none ↔ op.arithmetic? operands = none := by
  rw [fold?_integers hop _ hargs, h]
  cases op.arithmetic? operands <;> simp [Scalar.ofIntBits?]

/-- A quotient that is undefined is refused if it is one by zero, or of 64 bits. -/
theorem not_quotientFits_iff (hpos : 0 < width.toNat) (hle : width.toNat ≤ 64)
    (h : ¬ Divides a b) : ¬ quotientFits (Operand.ofVector width s a).signed
      (Operand.ofVector width t b).signed = true ↔ b = 0 ∨ width.toNat = 64 := by
  rw [quotientFits_iff hpos hle]
  by_cases hb : b = 0
  · exact iff_of_true (fun hfits => hfits.1 hb) (.inl hb)
  · have hleast : a = .intMin _ ∧ b = .allOnes _ := by_contra fun hnot => h ⟨hb, hnot⟩
    constructor
    · intro hnot
      exact .inr (by_contra fun hwide => hnot ⟨hb, fun hmin => hwide hmin.1⟩)
    · rintro (hzero | hwide) hfits
      · exact hb hzero
      · exact hfits.2 ⟨hwide, hleast⟩

/-- **Which undefined quotients are refused**: those by zero, and all of 64 bits. -/
theorem arithmetic?_division_eq_none_iff (hpos : 0 < width.toNat) (hle : width.toNat ≤ 64)
    (hdivision : op.isDivision = true) (h : op.binary? a b = none) :
    op.compare? [.ofVector width s a, .ofVector width t b] = none ∧
      (op.arithmetic? [.ofVector width s a, .ofVector width t b] = none ↔
        b = 0 ∨ width.toNat = 64) := by
  cases op with
  | uDiv | uMod =>
    have hb : b = 0 := by
      by_contra hne
      rw [binary?, if_pos hne] at h
      cases h
    exact ⟨rfl, iff_of_true (if_pos ((bits_ofVector_eq_zero_iff hle).mpr hb)) (.inl hb)⟩
  | sDiv | sRem | sMod =>
    have hnot : ¬ Divides a b := fun hdivides => by
      rw [binary?, if_pos hdivides] at h
      cases h
    refine ⟨rfl, ?_⟩
    simp only [arithmetic?, ite_eq_right_iff, reduceCtorEq, imp_false]
    exact not_quotientFits_iff hpos hle hnot
  | _ => cases hdivision

theorem arithmetic?_shift_eq_none_iff (hshift : op.isShift = true) (x y : Operand) :
    op.compare? [x, y] = none ∧ (op.arithmetic? [x, y] = none ↔ 64 ≤ y.bits.toNat) := by
  cases op with
  | shiftRightLogical | shiftRightArithmetic | shiftLeftLogical =>
    refine ⟨rfl, ?_⟩
    simp [arithmetic?]
  | _ => cases hshift

/-- **Which undefined operations are refused.** An undefined quotient or remainder has no result
exactly if the divisor is zero or the width is 64 bits, so that of the least number by minus one has
a result in fewer bits. A shift out of range has none exactly if it is one by at least 64 places. -/
theorem fold_undefined_iff (hpos : 0 < width.toNat) (hle : width.toNat ≤ 64)
    (hop : ofOpcode? opcode = some op) (signed : Bool) :
    (op.isDivision = true → ∀ s t a b, op.binary? a b = none →
      (fold? opcode (.int width signed) [.ofVector width s a, .ofVector width t b] = none ↔
        b = 0 ∨ width.toNat = 64)) ∧
    (op.isShift = true → ∀ s a source t (places : BitVec 64), op.shift? a places.toNat = none →
      (fold? opcode (.int width signed) [.ofVector width s a, .int source t places] = none ↔
        64 ≤ places.toNat)) := by
  constructor
  · intro hdivision s t a b h
    obtain ⟨hcompare, hnone⟩ := arithmetic?_division_eq_none_iff hpos hle hdivision h
    rw [fold?_eq_none_iff hop rfl hcompare]
    exact hnone
  · intro hshift s a source t places h
    obtain ⟨hcompare, hnone⟩ := arithmetic?_shift_eq_none_iff hshift _ _
    rw [fold?_eq_none_iff hop rfl hcompare]
    exact hnone

/-- A quotient by zero is refused, and so is a shift by 64 places. -/
theorem sample_fold_undefined :
    fold? 135 (.int 32 true) [.ofVector 32 true 7, .ofVector 32 true 0] = none ∧
    fold? 196 (.int 32 false) [.ofVector 32 false 1, .int 32 false 64] = none := by
  have hdiv : ofOpcode? 135 = some .sDiv := by decide
  have hshift : ofOpcode? 196 = some .shiftLeftLogical := by decide
  constructor
  · exact ((fold_undefined_iff (by decide) (by decide) hdiv true).1 rfl true true 7 0
      (by decide)).mpr (.inl rfl)
  · exact ((fold_undefined_iff (by decide) (by decide) hshift false).2 rfl false 1 32 false 64
      (by decide)).mpr (by decide)

/-- The least number of 32 bits by minus one, and a shift of 32 bits by 32 places, are undefined but
fold. -/
theorem sample_undefined_folds :
    binary? (BitVec.intMin 32) (BitVec.allOnes 32) .sDiv = none ∧
    fold? 135 (.int 32 true) [.ofVector 32 true (.intMin 32), .ofVector 32 true (.allOnes 32)] =
      some (.ofVector 32 true (.intMin 32)) ∧
    shift? (1 : BitVec 32) 32 .shiftLeftLogical = none ∧
    fold? 196 (.int 32 false) [.ofVector 32 false 1, .ofVector 32 false 32] =
      some (.ofVector 32 false 0) := by
  decide

end

end Operation

end ShaderReflect
