import ShaderReflect.Text.Number

/-!
# JSON documents

A `Json` value is written over several lines, each level indented by two spaces. An object lists its
fields in ascending order of their names, and an empty array or object takes no line of its own.

Numbers are natural, as nothing else is reported. In a string, quotes, backslashes and control
characters are escaped, by a letter where there is one and by four lower-case hexadecimal digits
elsewhere; all other characters stand for themselves, beyond ASCII as well.

* `Json.ofFields` puts fields in order; `Json.object` takes them as they are.
* `Json.render` writes a value at a level of indentation, `Json.pretty` writes a document.

That what is written is a JSON document, of the value that it is made from, is proved in
`Proofs/Report/Json`.
-/

namespace ShaderReflect

/-- A JSON value. -/
inductive Json
  | null
  | bool (value : Bool)
  | number (value : Nat)
  | string (value : String)
  | array (items : List Json)
  | object (fields : List (String × Json))
deriving Repr

namespace Json

/-- An object with the given fields, put in order. -/
def ofFields (fields : List (String × Json)) : Json :=
  .object (fields.mergeSort fun x y => x.1 ≤ y.1)

/-- A value that may be absent. -/
def ofOption {α : Type} (f : α → Json) : Option α → Json
  | some a => f a
  | none => .null

/-- Four hexadecimal digits. -/
def hex4 (n : Nat) : List Char :=
  let digits := Nat.toDigits 16 n
  List.replicate (4 - digits.length) '0' ++ digits

/-- A character as it is written in a string. Quotes, backslashes and control characters are
escaped. -/
def escapeChar (c : Char) : List Char :=
  if c = '"' then ['\\', '"']
  else if c = '\\' then ['\\', '\\']
  else if c = '\x08' then ['\\', 'b']
  else if c = '\x0c' then ['\\', 'f']
  else if c = '\n' then ['\\', 'n']
  else if c = '\r' then ['\\', 'r']
  else if c = '\t' then ['\\', 't']
  else if c.toNat < 32 then '\\' :: 'u' :: hex4 c.toNat
  else [c]

/-- A string between quotes. -/
def quote (s : String) : String := "\"" ++ String.ofList (s.toList.flatMap escapeChar) ++ "\""

/-- A new line at a level of indentation. -/
def newline (level : Nat) : String := "\n" ++ String.ofList (List.replicate (2 * level) ' ')

mutual

/-- A value written at a level of indentation. -/
def render (level : Nat) : Json → String
  | .null => "null"
  | .bool b => if b then "true" else "false"
  | .number n => toString n
  | .string s => quote s
  | .array [] => "[]"
  | .array (x :: xs) => "[" ++ renderItems (level + 1) (x :: xs) ++ newline level ++ "]"
  | .object [] => "\x7b\x7d"
  | .object (f :: fs) => "\x7b" ++ renderFields (level + 1) (f :: fs) ++ newline level ++ "\x7d"

/-- The items of an array, each on new lines. -/
def renderItems (level : Nat) : List Json → String
  | [] => ""
  | [x] => newline level ++ render level x
  | x :: xs => newline level ++ render level x ++ "," ++ renderItems level xs

/-- The fields of an object, each on new lines. -/
def renderFields (level : Nat) : List (String × Json) → String
  | [] => ""
  | [(name, x)] => newline level ++ quote name ++ ": " ++ render level x
  | (name, x) :: fs =>
    newline level ++ quote name ++ ": " ++ render level x ++ "," ++ renderFields level fs

end

/-- A value written as a document. -/
def pretty (x : Json) : String := x.render 0

end Json

end ShaderReflect
