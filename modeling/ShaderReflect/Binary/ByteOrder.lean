import ShaderReflect.Fault

/-!
# Bytes and words

A binary file holds its words four bytes each, in either byte order (specification, 3). The order is
recognised by the magic number that every binary starts with; a file that does not start with it is
read as little-endian. To reject such a file is not the business of decoding but that of the check
of the header (`Header.read`).

* `ByteOrder.encode` writes words, `ByteOrder.decode?` reads them back.
* `ByteOrder.detect` recognises the order from the first four bytes.
* `wordsOfBytes` decodes a file in the order that it is recognised to have.

The length of a file has to be a multiple of four. This is found while the bytes are taken four at a
time, after the order has been recognised. Neither order can do with part of a word, so it is the
same as asking for the length first.
-/

namespace ShaderReflect

/-- The word that every binary starts with. -/
def magicNumber : Word := 0x07230203

/-- The order of the four bytes of a word. -/
inductive ByteOrder
  /-- Low-order byte first. -/
  | little
  /-- High-order byte first. -/
  | big
deriving DecidableEq, Repr

namespace ByteOrder

/-- The word made of four bytes, the low-order one first. -/
def wordOfBytes (a b c d : UInt8) : Word :=
  UInt32.ofNat (a.toNat + 0x100 * b.toNat + 0x10000 * c.toNat + 0x1000000 * d.toNat)

/-- The four bytes of a word, the low-order one first. -/
def bytesOfWord (w : Word) : List UInt8 := [
  UInt8.ofNat w.toNat, UInt8.ofNat (w.toNat / 0x100), UInt8.ofNat (w.toNat / 0x10000),
  UInt8.ofNat (w.toNat / 0x1000000)]

/-- The word that four bytes stand for. -/
def word : ByteOrder → UInt8 → UInt8 → UInt8 → UInt8 → Word
  | .little, a, b, c, d => wordOfBytes a b c d
  | .big, a, b, c, d => wordOfBytes d c b a

/-- The four bytes of a word in an order. -/
def bytes : ByteOrder → Word → List UInt8
  | .little, w => bytesOfWord w
  | .big, w => (bytesOfWord w).reverse

/-- The bytes of a list of words. -/
def encode (o : ByteOrder) (ws : List Word) : List UInt8 := ws.flatMap o.bytes

/-- The words that bytes stand for, if there is a whole number of words. -/
def decode? (o : ByteOrder) : List UInt8 → Option (List Word)
  | [] => some []
  | a :: b :: c :: d :: rest => (o.decode? rest).map (o.word a b c d :: ·)
  | _ => none

/-- The order of a file: big-endian if it starts with the magic number in that order. -/
def detect (file : List UInt8) : ByteOrder :=
  if file.take 4 = ByteOrder.big.bytes magicNumber then .big else .little

end ByteOrder

/-- The words of a file, in the byte order that it is recognised to have. -/
def wordsOfBytes (file : List UInt8) : Except Fault (List Word) :=
  match (ByteOrder.detect file).decode? file with
  | some ws => .ok ws
  | none => .error (.corrupted .partialWord)

end ShaderReflect
