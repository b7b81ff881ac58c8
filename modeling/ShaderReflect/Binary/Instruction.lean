import ShaderReflect.Fault

/-!
# Instructions

The body of a binary is a row of instructions. The first word of one holds its length in words, in
the high half, and its opcode, in the low half; its operands follow.

* `Instruction.words` writes an instruction.
* `Instruction.next?` cuts the next one off a body. A length of zero, or one that reaches past the
  end, is a fault and ends the body.
* `Instruction.stream` is everything that a body yields until it ends.

The specification (4.1) asks for a lazy iterator, `instrs`, that is over after its first error. It
is `next?` that is asked for one item here. It hands back what is left of the body, and nothing is
left after a fault, so there is no flag to say that the body has ended. The stream is used where all
items are wanted; it ends because `next?` takes at least one word (`length_lt_of_next?`).

Operands are cut off by their number. What they mean is left to `Statement`.
-/

namespace ShaderReflect

/-- An opcode with its operands. -/
structure Instruction where
  opcode : Opcode
  operands : List Word
deriving DecidableEq, Repr

namespace Instruction

/-- The length in words, the first word included. -/
def wordCount (i : Instruction) : Nat := i.operands.length + 1

/-- The words of an instruction. -/
def words (i : Instruction) : List Word :=
  UInt32.ofNat (i.wordCount * 0x10000 + i.opcode.toNat) :: i.operands

/-- The next instruction of a body, or the fault that ends it, with the rest of the body. -/
def next? : List Word → Option (Except Fault Instruction × List Word)
  | [] => none
  | first :: rest =>
    let count := first.toNat / 0x10000
    let opcode := UInt32.ofNat (first.toNat % 0x10000)
    if count = 0 then
      some (.error (.corrupted (.zeroWordCount opcode)), [])
    else if count > rest.length + 1 then
      some (.error (.corrupted (.truncated opcode)), [])
    else
      some (.ok ⟨opcode, rest.take (count - 1)⟩, rest.drop (count - 1))

theorem length_lt_of_next? {body rest : List Word} {item : Except Fault Instruction}
    (h : next? body = some (item, rest)) : rest.length < body.length := by
  cases body with
  | nil => cases h
  | cons first tail =>
    simp only [next?] at h
    split at h
    · cases h
      simp
    · split at h
      · cases h
        simp
      · cases h
        simp only [List.length_drop, List.length_cons]
        omega

/-- The instructions of a body in order, ended by a fault if there is one. -/
def stream (body : List Word) : List (Except Fault Instruction) :=
  match h : next? body with
  | none => []
  | some (item, rest) =>
    have := length_lt_of_next? h
    item :: stream rest
termination_by body.length

end Instruction

end ShaderReflect
