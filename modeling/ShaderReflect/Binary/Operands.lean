import ShaderReflect.Binary.Literal
import ShaderReflect.Enumerant

/-!
# Reading operands

A `Read` takes what it needs from the front of the unread operands of an instruction (specification,
4.1). There are seven: `word`, `flag`, `ident`, `enumerant`, `string`, `rest` and `idents`. A read
hands back the operands it leaves even if it fails, as a client may catch the fault and read on.

A read that fails leaves what it did not consume: nothing is consumed when the operands run out or a
string has no end; a word that is read and then refused is consumed; so is a string that is not
UTF-8, and so are all operands if one of them is refused as an ID.

A flag is true unless its word is zero. An ID is checked against the bound only: whether anything is
declared under it is asked later (`Graph.check`).
-/

namespace ShaderReflect

/-- A read from the front of the operands: what it yields, and the operands it leaves. -/
def Read (α : Type) := List Word → Except Fault α × List Word

namespace Read

variable {α β : Type}

instance : Monad Read where
  pure a := fun ws => (.ok a, ws)
  bind r f := fun ws =>
    match r ws with
    | (.ok a, rest) => f a rest
    | (.error e, rest) => (.error e, rest)

/-- Fail without consuming anything. -/
def fail (f : Fault) : Read α := fun ws => (.error f, ws)

/-- What a read yields on all operands of an instruction. -/
def run (r : Read α) (operands : List Word) : Except Fault α := (r operands).1

/-- The next word. -/
def word : Read Word
  | [] => (.error (.corrupted .missingOperands), [])
  | w :: rest => (.ok w, rest)

/-- The next word as a truth value: everything but zero is true. -/
def flag : Read Bool := do return (← word) ≠ 0

/-- Fail unless an ID is positive and below the bound. -/
def checkIdent (bound id : Word) : Except Fault Unit :=
  if id = 0 ∨ bound ≤ id then .error (.corrupted (.outOfBound id bound)) else .ok ()

/-- The next word as an ID. -/
def ident (bound : Word) : Read Ident := do
  let id ← word
  match checkIdent bound id with
  | .ok () => return id
  | .error e => fail e

/-- The next word as an enumerant. -/
def enumerant (α : Type) [Enumerant α] : Read α := do
  let w ← word
  match Enumerant.ofWord? w with
  | some a => return a
  | none => fail (.unsupported (.enumerant w))

/-- The string literal at the front. -/
def string : Read String := fun ws =>
  match ws, Literal.split? ws with
  | [], _ => (.error (.corrupted .missingOperands), ws)
  | _, none => (.error (.corrupted .unterminatedString), ws)
  | _, some (bs, rest) =>
    match Literal.decode? bs with
    | some s => (.ok s, rest)
    | none => (.error (.corrupted .invalidString), rest)

/-- All remaining words. -/
def rest : Read (List Word) := fun ws => (.ok ws, [])

/-- All remaining words as IDs. -/
def idents (bound : Word) : Read (List Ident) := do
  let ids ← rest
  match ids.forM (checkIdent bound) with
  | .ok () => return ids
  | .error e => fail e

end Read

end ShaderReflect
