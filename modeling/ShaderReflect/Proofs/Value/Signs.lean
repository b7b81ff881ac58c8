import Mathlib.Data.List.Forall2
import ShaderReflect.Proofs.Value.Folding

/-!
# Integers that are declared without a sign

An operation that is signed reads its operands as numbers with a sign. An integer of less than 64
bits that is declared unsigned is read without one, so the result depends on how the operands are
declared: the bits and the opcode do not settle it.

The specification (4.3) does not say which it should be. Here the type of the result stays the same,
whatever it is, and only the declarations of operands differ. The amount of a shift is read without
a sign in any case. Remainders of one bit are an exception: they are zero or undefined, however the
operands are declared.

Results:
* `Operation.fold?_congr_signs`: integers with a clear sign bit, and integers of 64 bits, can be
  declared either way.
* `Operation.not_ignoresSigns`: the sign bit alone is an integer that cannot.
* `Operation.fold_signs_iff`: where the declared signs do not matter.
-/

namespace ShaderReflect

namespace Scalar

variable {width : Word}

/-- The integers of some vectors, each of them declared signed or not. -/
def ofVectors (width : Word) (xs : List (Bool × BitVec width.toNat)) : List Scalar :=
  xs.map fun x => ofVector width x.1 x.2

end Scalar

namespace Operation

variable {width : Word} {opcode : Opcode} {op : Operation} {s t : Bool} {a b : BitVec width.toNat}
  {xs ys : List (Bool × BitVec width.toNat)}

/-- The operands that some integers are. -/
def Operand.ofVectors (width : Word) (xs : List (Bool × BitVec width.toNat)) : List Operand :=
  xs.map fun x => .ofVector width x.1 x.2

theorem mapM_ofScalar?_ofVectors (xs : List (Bool × BitVec width.toNat)) :
    (Scalar.ofVectors width xs).mapM Operand.ofScalar? = some (Operand.ofVectors width xs) := by
  induction xs with
  | nil => rfl
  | cons x xs ih =>
    rw [Scalar.ofVectors, List.map_cons, List.mapM_cons, ← Scalar.ofVectors, ih]
    rfl

/-- The result of an operation on integers of a width does not depend on which of them are declared
signed. -/
def IgnoresSigns (opcode : Opcode) (width : Word) : Prop :=
  ∀ (type : TypeDecl) (xs ys : List (Bool × BitVec width.toNat)),
    List.Forall₂ (fun x y => x.2 = y.2) xs ys →
      fold? opcode type (Scalar.ofVectors width xs) = fold? opcode type (Scalar.ofVectors width ys)

/-! ## Signs that do not matter -/

/-- An integer is the same operand either way if its sign bit is clear, or if it has 64 bits. -/
theorem ofVector_eq_ofVector (hpos : 0 < width.toNat) (hle : width.toNat ≤ 64)
    (h : s = t ∨ a.msb = false ∨ width.toNat = 64) :
    Operand.ofVector width s a = Operand.ofVector width t a := by
  have hsigned : (Operand.ofVector width s a).signed = (Operand.ofVector width t a).signed := by
    rw [signed_ofVector hpos hle, signed_ofVector hpos hle]
    rcases h with rfl | hclear | hwide
    · rfl
    · rw [BitVec.toInt_eq_toNat_of_msb hclear, ite_self, ite_self]
    · rw [if_pos (Or.inr hwide), if_pos (Or.inr hwide)]
  exact congrArg (Operand.mk (a.setWidth 64)) hsigned

/-- **Integers with a clear sign bit, and integers of 64 bits, can be declared either way**, for
every operation. -/
theorem fold?_congr_signs (hpos : 0 < width.toNat) (hle : width.toNat ≤ 64) (opcode : Opcode)
    (type : TypeDecl) (h : List.Forall₂ (fun x y => x.2 = y.2 ∧
      (x.1 = y.1 ∨ x.2.msb = false ∨ width.toNat = 64)) xs ys) :
    fold? opcode type (Scalar.ofVectors width xs) =
      fold? opcode type (Scalar.ofVectors width ys) := by
  have hoperands : Operand.ofVectors width xs = Operand.ofVectors width ys := by
    induction h with
    | nil => rfl
    | cons hx _ ih =>
      obtain ⟨hvector, hsign⟩ := hx
      simp only [Operand.ofVectors, List.map_cons, ← hvector] at ih ⊢
      rw [ofVector_eq_ofVector hpos hle hsign, ih]
  cases hop : ofOpcode? opcode with
  | none => simp [fold?, hop]
  | some op =>
    rw [fold?_integers hop type (mapM_ofScalar?_ofVectors xs),
      fold?_integers hop type (mapM_ofScalar?_ofVectors ys), hoperands]

/-- The remainder of one bit by another one is zero, with whatever signs. -/
theorem arithmetic?_of_one_bit (hone : width.toNat = 1) (hop : op = .sRem ∨ op = .sMod) (s t : Bool)
    (a b : BitVec width.toNat) : op.arithmetic? [.ofVector width s a, .ofVector width t b] =
      if b ≠ 0 then some 0 else none := by
  have hpos : 0 < width.toNat := by omega
  have hle : width.toNat ≤ 64 := by omega
  have hfits : quotientFits (Operand.ofVector width s a).signed (Operand.ofVector width t b).signed
      = true ↔ b ≠ 0 := by
    rw [quotientFits_iff hpos hle]
    exact and_iff_left fun h => by omega
  by_cases hb : b = 0
  · have hrefused := mt hfits.mp (not_not.mpr hb)
    rw [if_neg (not_not.mpr hb)]
    rcases hop with rfl | rfl <;> exact if_neg hrefused
  · -- The divisor is read as one or as minus one.
    have hbit : b.toNat = 1 := by
      have hlt : b.toNat < 2 := Nat.lt_of_lt_of_eq b.isLt (by rw [hone])
      have hne : b.toNat ≠ 0 := fun h => hb (BitVec.eq_of_toNat_eq h)
      omega
    have hunit : (Operand.ofVector width t b).signed = 1 ∨
        (Operand.ofVector width t b).signed = -1 := by
      rw [signed_ofVector hpos hle, BitVec.toInt_eq_toNat_cond, hbit, hone]
      cases t <;> simp
    have hrem : (Operand.ofVector width s a).signed.tmod
        (Operand.ofVector width t b).signed = 0 := by
      rcases hunit with h | h <;> simp [h]
    rw [if_pos hb]
    rcases hop with rfl | rfl
    · simp [arithmetic?, hfits.mpr hb, hrem]
    · simp [arithmetic?, hfits.mpr hb, remainderOfDivisor, hrem]

theorem fold?_of_one_bit (hone : width.toNat = 1) (hop : ofOpcode? opcode = some op)
    (hremainder : op = .sRem ∨ op = .sMod) (type : TypeDecl)
    (hsame : List.Forall₂ (fun x y => x.2 = y.2) xs ys) :
    fold? opcode type (Scalar.ofVectors width xs) =
      fold? opcode type (Scalar.ofVectors width ys) := by
  have hcompare (operands : List Operand) : op.compare? operands = none := by
    rcases hremainder with rfl | rfl <;> rfl
  have harithmetic : op.arithmetic? (Operand.ofVectors width xs) =
      op.arithmetic? (Operand.ofVectors width ys) := by
    rcases hsame with _ | ⟨hx, _ | ⟨hy, _ | _⟩⟩
    · rfl
    · rcases hremainder with rfl | rfl <;> rfl
    · simp only [Operand.ofVectors, List.map_cons, List.map_nil, hx, hy,
        arithmetic?_of_one_bit hone hremainder]
    · rcases hremainder with rfl | rfl <;> rfl
  rw [fold?_integers hop type (mapM_ofScalar?_ofVectors xs),
    fold?_integers hop type (mapM_ofScalar?_ofVectors ys), hcompare, hcompare, harithmetic]

/-! ## Signs that matter -/

/-- What an operation computes is the result if that has 64 bits. -/
theorem fold?_wide (hop : ofOpcode? opcode = some op) (xs : List (Bool × BitVec width.toNat)) :
    fold? opcode (.int 64 true) (Scalar.ofVectors width xs) =
      match op.compare? (Operand.ofVectors width xs) with
      | some c => some (.bool c)
      | none => (op.arithmetic? (Operand.ofVectors width xs)).map (.int 64 true) := by
  rw [fold?_integers hop _ (mapM_ofScalar?_ofVectors xs), Option.map_eq_bind]
  rfl

theorem signed_ofVector_false (hpos : 0 < width.toNat) (hlt : width.toNat < 64)
    (v : BitVec width.toNat) : (Operand.ofVector width false v).signed = v.toNat := by
  rw [signed_ofVector hpos (Nat.le_of_lt hlt), if_neg (by simp [Nat.ne_of_lt hlt])]

/-- The sign bit alone stands for a number or for its opposite. -/
theorem signed_ofVector_intMin (hpos : 0 < width.toNat) (hlt : width.toNat < 64) {p : Int}
    (hp : p = 2 ^ (width.toNat - 1)) :
    (Operand.ofVector width true (.intMin width.toNat)).signed = -p ∧
      (Operand.ofVector width false (.intMin width.toNat)).signed = p := by
  rw [signed_ofVector_true hpos (Nat.le_of_lt hlt), signed_ofVector_false hpos hlt,
    BitVec.toInt_intMin_of_pos hpos, BitVec.toNat_intMin_of_pos hpos, hp]
  push_cast
  exact ⟨rfl, rfl⟩

theorem signed_ofVector_allOnes (hpos : 0 < width.toNat) (hlt : width.toNat < 64) {p : Int}
    (hp : p = 2 ^ (width.toNat - 1)) :
    (Operand.ofVector width false (.allOnes width.toNat)).signed = 2 * p - 1 := by
  have hdouble : ((2 ^ width.toNat : Nat) : Int) = 2 * p := by
    rw [hp, ← Nat.sub_add_cancel hpos, Nat.pow_succ]
    push_cast
    exact Int.mul_comm _ _
  rw [signed_ofVector_false hpos hlt, BitVec.toNat_allOnes, Int.ofNat_sub Nat.one_le_two_pow,
    hdouble]
  rfl

/-- An operation that ignores signs compares and computes alike, however its operands are
declared. -/
theorem IgnoresSigns.eq (hop : ofOpcode? opcode = some op) (h : IgnoresSigns opcode width)
    (hsame : List.Forall₂ (fun x y => x.2 = y.2) xs ys) :
    op.compare? (Operand.ofVectors width xs) = op.compare? (Operand.ofVectors width ys) ∧
    (op.compare? (Operand.ofVectors width xs) = none →
      op.arithmetic? (Operand.ofVectors width xs) =
        op.arithmetic? (Operand.ofVectors width ys)) := by
  have heq := h (.int 64 true) xs ys hsame
  rw [fold?_wide hop, fold?_wide hop] at heq
  cases hx : op.compare? (Operand.ofVectors width xs) <;>
    cases hy : op.compare? (Operand.ofVectors width ys) <;> rw [hx, hy] at heq
  · exact ⟨rfl, fun _ => Option.map_injective (fun _ _ heq => (Scalar.int.inj heq).2.2) heq⟩
  · obtain ⟨_, _, ⟨⟩⟩ := Option.map_eq_some_iff.mp heq
  · obtain ⟨_, _, ⟨⟩⟩ := Option.map_eq_some_iff.mp heq.symm
  · exact ⟨congrArg some (Scalar.bool.inj (Option.some.inj heq)), nofun⟩

section

variable {x y z : Operand} {p : Int}

theorem ofInt_inj_of_small {i j : Int} (hi : -2 ^ 62 ≤ i ∧ i ≤ 2 ^ 62)
    (hj : -2 ^ 62 ≤ j ∧ j ≤ 2 ^ 62) (h : BitVec.ofInt 64 i = BitVec.ofInt 64 j) : i = j := by
  have hself {k : Int} (hk : -2 ^ 62 ≤ k ∧ k ≤ 2 ^ 62) : (BitVec.ofInt 64 k).toInt = k :=
    BitVec.toInt_ofInt_eq_self (by decide) (by omega) (by omega)
  rw [← hself hi, h, hself hj]

/-- Zero tells a number from its opposite. -/
theorem compare?_opposite (hpos : 0 < p) (hx : x.signed = -p) (hy : y.signed = p)
    (hz : z.signed = 0) (hop : op = .sGreaterThan ∨ op = .sGreaterThanEqual ∨ op = .sLessThan ∨
      op = .sLessThanEqual) : op.compare? [x, z] ≠ op.compare? [y, z] := by
  rcases hop with rfl | rfl | rfl | rfl <;> simp [compare?, hx, hy, hz] <;> omega

theorem arithmetic?_opposite (hpos : 0 < p) (hsmall : p ≤ 2 ^ 62) (hx : x.signed = -p)
    (hy : y.signed = p) :
    arithmetic? .sConvert [x] ≠ arithmetic? .sConvert [y] ∧
    (z.bits = 0 → arithmetic? .shiftRightArithmetic [x, z] ≠
      arithmetic? .shiftRightArithmetic [y, z]) ∧
    (z.signed = 1 → arithmetic? .sDiv [x, z] ≠ arithmetic? .sDiv [y, z]) ∧
    (1 < p → z.signed = 2 * p - 1 → arithmetic? .sRem [x, z] ≠ arithmetic? .sRem [y, z] ∧
      arithmetic? .sMod [x, z] ≠ arithmetic? .sMod [y, z]) := by
  have hne {i j : Int} (hi : -2 ^ 62 ≤ i ∧ i ≤ 2 ^ 62) (hj : -2 ^ 62 ≤ j ∧ j ≤ 2 ^ 62)
      (h : i ≠ j) : BitVec.ofInt 64 i ≠ BitVec.ofInt 64 j := mt (ofInt_inj_of_small hi hj) h
  have hopposite := hne (i := -p) (j := p) (by omega) (by omega) (by omega)
  refine ⟨?_, fun hz => ?_, fun hz => ?_, fun hlarge hz => ?_⟩
  · simpa [arithmetic?, hx, hy] using hopposite
  · simpa [arithmetic?, hx, hy, hz] using hopposite
  · simpa [arithmetic?, quotientFits, hx, hy, hz] using hopposite
  · have hfits (a : Int) : quotientFits a z.signed = true := by
      rw [quotientFits, decide_eq_true_eq]
      omega
    have hrem : p.tmod z.signed = p := Int.tmod_eq_of_lt (by omega) (by omega)
    have hmodneg : remainderOfDivisor (-p) z.signed = p - 1 := by
      rw [remainderOfDivisor, Int.neg_tmod, hrem]
      grind
    have hmod : remainderOfDivisor p z.signed = p := by
      rw [remainderOfDivisor, hrem]
      grind
    constructor
    · simpa [arithmetic?, hfits, hx, hy, hrem] using hopposite
    · simpa [arithmetic?, hfits, hx, hy, hmodneg, hmod] using
        hne (i := p - 1) (j := p) (by omega) (by omega) (by omega)

end

/-- **A signed operation tells integers of less than 64 bits apart by their declared signs**, unless
it is a remainder of one bit. The operand that gives it away is the sign bit alone. -/
theorem not_ignoresSigns (hpos : 0 < width.toNat) (hlt : width.toNat < 64)
    (hop : ofOpcode? opcode = some op) (hsigned : op.isSigned = true)
    (hbit : width.toNat = 1 → ¬ (op = .sRem ∨ op = .sMod)) : ¬ IgnoresSigns opcode width := by
  intro hignores
  have hle := Nat.le_of_lt hlt
  have hflip (rest : List (Bool × BitVec width.toNat)) := hignores.eq hop (List.Forall₂.cons
    (show (true, BitVec.intMin _).2 = (false, BitVec.intMin _).2 from rfl)
    (List.forall₂_same.mpr fun x (_ : x ∈ rest) => rfl))
  obtain ⟨p, hp⟩ : ∃ p : Int, p = 2 ^ (width.toNat - 1) := ⟨_, rfl⟩
  have hpositive : 0 < p := hp ▸ Int.pow_pos (by decide)
  have hsmall : p ≤ 2 ^ 62 :=
    hp ▸ mod_cast Nat.pow_le_pow_right (by decide) (show width.toNat - 1 ≤ 62 by omega)
  have hlarge : width.toNat ≠ 1 → 1 < p := fun hne =>
    have hexponent : 1 ≤ width.toNat - 1 := by omega
    hp ▸ mod_cast Nat.pow_le_pow_right (show 0 < 2 by decide) hexponent
  obtain ⟨hneg, hplain⟩ := signed_ofVector_intMin hpos hlt hp
  have hones := signed_ofVector_allOnes hpos hlt hp
  have hopposite (z : Operand) := arithmetic?_opposite (z := z) hpositive hsmall hneg hplain
  have hreads := signed_ofVector_false hpos hlt
  cases op with
  | sConvert => exact (hopposite (.ofVector width false 0)).1 ((hflip []).2 rfl)
  | shiftRightArithmetic =>
    exact (hopposite _).2.1 ((bits_ofVector_eq_zero_iff hle).mpr rfl) ((hflip [(false, 0)]).2 rfl)
  | sDiv =>
    refine (hopposite _).2.2.1 ?_ ((hflip [(false, 1)]).2 rfl)
    simp [hreads, hpos]
  | sRem =>
    have hdivisor := hlarge fun h => hbit h (.inl rfl)
    exact ((hopposite _).2.2.2 hdivisor hones).1 ((hflip [(false, .allOnes _)]).2 rfl)
  | sMod =>
    have hdivisor := hlarge fun h => hbit h (.inr rfl)
    exact ((hopposite _).2.2.2 hdivisor hones).2 ((hflip [(false, .allOnes _)]).2 rfl)
  | sGreaterThan | sGreaterThanEqual | sLessThan | sLessThanEqual =>
    exact compare?_opposite hpositive hneg hplain (by simp [hreads]) (by simp)
      (hflip [(false, 0)]).1
  | _ => cases hsigned

/-- **Where the declared signs of operands do not matter to a signed operation.** Operands with a
clear sign bit can be declared either way. All operands of a width can be if they have 64 bits, or
if remainders of one bit are taken, and else not. -/
theorem fold_signs_iff (hpos : 0 < width.toNat) (hle : width.toNat ≤ 64)
    (hop : ofOpcode? opcode = some op) (hsigned : op.isSigned = true) :
    (∀ type (xs ys : List (Bool × BitVec width.toNat)), List.Forall₂ (fun x y => x.2 = y.2 ∧
        (x.1 = y.1 ∨ x.2.msb = false ∨ width.toNat = 64)) xs ys →
      fold? opcode type (Scalar.ofVectors width xs) =
        fold? opcode type (Scalar.ofVectors width ys)) ∧
    (IgnoresSigns opcode width ↔
      width.toNat = 64 ∨ width.toNat = 1 ∧ (op = .sRem ∨ op = .sMod)) := by
  refine ⟨fun type xs ys => fold?_congr_signs hpos hle opcode type, fun hignores => ?_, ?_⟩
  · by_contra hnot
    rw [not_or, not_and] at hnot
    exact not_ignoresSigns hpos (by omega) hop hsigned hnot.2 hignores
  · rintro (hwide | ⟨hone, hremainder⟩) type xs ys hsame
    · exact fold?_congr_signs hpos hle opcode type (hsame.imp fun _ _ h => ⟨h, .inr (.inr hwide)⟩)
    · exact fold?_of_one_bit hone hop hremainder type hsame

/-- Of 7 / -2, it does not matter how 7 is declared; a quotient of 32 bits depends on the signs, a
remainder of one bit does not. -/
theorem sample_fold_signs :
    fold? 135 (.int 32 true) [.ofVector 32 true 7, .ofVector 32 true (-2)] =
      fold? 135 (.int 32 true) [.ofVector 32 false 7, .ofVector 32 true (-2)] ∧
    ¬ IgnoresSigns 135 32 ∧ IgnoresSigns 138 1 := by
  have hdiv : ofOpcode? 135 = some .sDiv := by decide
  have hrem : ofOpcode? 138 = some .sRem := by decide
  refine ⟨?_, ?_, ?_⟩
  · exact (fold_signs_iff (by decide) (by decide) hdiv rfl).1 _ [(true, 7), (true, -2)]
      [(false, 7), (true, -2)] (.cons ⟨rfl, .inr (.inl (by decide))⟩ (.cons ⟨rfl, .inl rfl⟩ .nil))
  · exact mt (fold_signs_iff (by decide) (by decide) hdiv rfl).2.mp (by decide)
  · exact (fold_signs_iff (by decide) (by decide) hrem rfl).2.mpr (.inr ⟨rfl, .inl rfl⟩)

/-- The quotient of -8 by 2 is -4, unless -8 is declared unsigned: then that of 2 ^ 32 - 8 is
taken. -/
theorem sample_signs_matter :
    (-8 : BitVec 32).sdiv 2 = -4 ∧
    fold? 135 (.int 32 false) [.ofVector 32 true (-8), .ofVector 32 true 2] =
      some (.ofVector 32 false (-4)) ∧
    fold? 135 (.int 32 false) [.ofVector 32 false (-8), .ofVector 32 false 2] =
      some (.ofVector 32 false 0x7ffffffc) := by
  decide

end Operation

end ShaderReflect
