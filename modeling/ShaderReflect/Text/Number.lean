/-!
# Numbers as text

Numbers are written in decimal by `toString` and in lower-case hexadecimal here, and read from
decimal digits.

* `hex n` writes `0x` and the digits of `n`; `hexPadded n w` pads the digits with zeros to `w`. The
  former is for the bits of floating-point numbers of an uncommon width, the latter for the words of
  a header in messages.
* `readBelow? limit cs` reads one or more digits, with any number of leading zeros and at most one
  leading `+`. A number that is not below the limit is refused. Members and elements in a path are
  read with a limit of 64 bits, the numbers of an override on the command line with one of 32.

There is no sign but the plus, no separator, and no blank around a number.
-/

namespace ShaderReflect.Text

/-- The hexadecimal digits of a number, after `0x`. -/
def hex (n : Nat) : String := "0x" ++ String.ofList (Nat.toDigits 16 n)

/-- As `hex`, with the digits padded by zeros to a width. -/
def hexPadded (n width : Nat) : String :=
  let digits := Nat.toDigits 16 n
  "0x" ++ String.ofList (List.replicate (width - digits.length) '0' ++ digits)

/-- The value of a decimal digit. -/
def digit? (c : Char) : Option Nat :=
  if '0' ≤ c ∧ c ≤ '9' then some (c.toNat - '0'.toNat) else none

/-- The value of decimal digits, as long as every part of it read so far is below a limit. -/
def digitsBelow? (limit : Nat) : Nat → List Char → Option Nat
  | n, [] => some n
  | n, c :: cs => do
    let d ← digit? c
    if 10 * n + d < limit then digitsBelow? limit (10 * n + d) cs else none

/-- Read a decimal number below a limit: digits, after at most one `+`. -/
def readBelow? (limit : Nat) : List Char → Option Nat
  | [] => none
  | ['+'] => none
  | '+' :: cs => digitsBelow? limit 0 cs
  | cs => digitsBelow? limit 0 cs

end ShaderReflect.Text
