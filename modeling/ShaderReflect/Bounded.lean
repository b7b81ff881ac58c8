import ShaderReflect.Fault

/-!
# Arithmetic with a ceiling

Sizes, offsets and counts are natural numbers below a ceiling: sizes and offsets have 64 bits,
counts of descriptors 32. A sum or product that reaches the ceiling is not a number of that kind any
more, so the operation reports an overflow.

The specification is silent about overflows. The arithmetic here is checked: a result that is out of
range ends the computation, and none has wrapped around. An overflow is not a `Fault`, as nothing in
the request has been found to be wrong. Where operands may be absent (`add?`, `mul?`), an absent one
makes the result absent without arithmetic, so it cannot overflow either.

* `add_eq_ok_iff`, `mul_eq_ok_iff`: below the ceiling, and only there, the result is that of natural
  numbers.
-/

namespace ShaderReflect.Bounded

/-- Sizes and offsets in bytes are numbers of 64 bits. -/
def sizeCeiling : Nat := 0x10000000000000000

/-- Counts of descriptors are numbers of 32 bits. -/
def countCeiling : Nat := 0x100000000

/-- The sum of two numbers, if it is below the ceiling. -/
def add (ceiling a b : Nat) : Except Overflow Nat :=
  if a + b < ceiling then .ok (a + b) else .error .addition

/-- The product of two numbers, if it is below the ceiling. -/
def mul (ceiling a b : Nat) : Except Overflow Nat :=
  if a * b < ceiling then .ok (a * b) else .error .multiplication

/-- The sum of two numbers that may be absent; it is absent if one of them is. -/
def add? (ceiling : Nat) : Option Nat → Option Nat → Except Overflow (Option Nat)
  | some a, some b => some <$> add ceiling a b
  | _, _ => .ok none

/-- A number that may be absent, times another. -/
def mul? (ceiling : Nat) : Option Nat → Nat → Except Overflow (Option Nat)
  | some a, b => some <$> mul ceiling a b
  | none, _ => .ok none

/-- The product of a list, multiplied from the left. -/
def product (ceiling : Nat) (xs : List Nat) : Except Overflow Nat := xs.foldlM (mul ceiling) 1

theorem add_eq_ok_iff {ceiling a b c : Nat} :
    add ceiling a b = .ok c ↔ a + b < ceiling ∧ c = a + b := by
  unfold add
  split <;> rename_i h <;> simp [h, eq_comm]

theorem mul_eq_ok_iff {ceiling a b c : Nat} :
    mul ceiling a b = .ok c ↔ a * b < ceiling ∧ c = a * b := by
  unfold mul
  split <;> rename_i h <;> simp [h, eq_comm]

end ShaderReflect.Bounded
