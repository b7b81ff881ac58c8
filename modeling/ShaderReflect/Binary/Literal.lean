import ShaderReflect.Binary.ByteOrder

/-!
# String literals

A string literal is UTF-8, four bytes a word, the first byte in the low-order place (specification,
4.1). It ends at the first NUL byte, whose word is the last one of the literal; the bytes after the
NUL are padding, and may be anything.

* `Literal.pack` writes a string, with zeros for the padding.
* `Literal.split?` finds the bytes of the string at the front of some words, and what follows.
* `Literal.decode?` is the string that bytes stand for.

To find the end of a literal and to decode it are two steps: a literal that ends but is not UTF-8 is
taken off the operands like any other (`Read.string`). The order of the bytes in a word is that of
the literal, whatever the byte order of the file was.
-/

namespace ShaderReflect.Literal

/-- The four bytes of a word in a literal. -/
def bytes (w : Word) : List UInt8 := ByteOrder.little.bytes w

/-- The words of a literal that holds the given bytes: a NUL follows them, then zeros up to a
whole word. -/
def packBytes : List UInt8 → List Word
  | a :: b :: c :: d :: rest => ByteOrder.wordOfBytes a b c d :: packBytes rest
  | [a, b, c] => [ByteOrder.wordOfBytes a b c 0]
  | [a, b] => [ByteOrder.wordOfBytes a b 0 0]
  | [a] => [ByteOrder.wordOfBytes a 0 0 0]
  | [] => [0]

/-- The words of the literal for a string. -/
def pack (s : String) : List Word := packBytes s.toUTF8.toList

/-- The bytes before the first NUL of a literal, with the words after the one that holds the NUL;
nothing if no word holds one. -/
def split? : List Word → Option (List UInt8 × List Word)
  | [] => none
  | w :: rest =>
    if 0 ∈ bytes w then
      some ((bytes w).takeWhile (· ≠ 0), rest)
    else
      (split? rest).map fun (bs, after) => (bytes w ++ bs, after)

/-- The string that UTF-8 bytes stand for. -/
def decode? (bs : List UInt8) : Option String := String.fromUTF8? ⟨bs.toArray⟩

end ShaderReflect.Literal
