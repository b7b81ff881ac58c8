import ShaderReflect.Proofs.Binary.Literal
import ShaderReflect.Reflection

/-!
# The byte order of a file does not matter

A file is its words in the order that it is recognised to have, so decoding loses nothing, whatever
the file starts with. Words that start with the magic number give away the order that they are
written in, so both ways to write them are read back.

* `ByteOrder.decode?_eq_some_iff`, `ByteOrder.decode?_eq_none_iff`: in each order, decoding undoes
  encoding, and only a part of a word cannot be decoded.
* `ByteOrder.detect_eq_big_iff`, `ByteOrder.detect_encode`: the order that a file is recognised to
  have.
* `wordsOfBytes_exact`: how files are decoded.

Specification, 3. Of words that do not start with the magic number nothing like this holds: written
high-order byte first, they are read back in the other order, unless they read alike in both. The
check of the header rejects them either way.
-/

namespace ShaderReflect

namespace ByteOrder

variable {o : ByteOrder} {file : List UInt8} {w : Word} {ws : List Word}

/-! ## One word -/

/-- The word made of the four bytes of a word. -/
theorem wordOfBytes_ofNat (w : Word) :
    wordOfBytes (UInt8.ofNat w.toNat) (UInt8.ofNat (w.toNat / 0x100))
      (UInt8.ofNat (w.toNat / 0x10000)) (UInt8.ofNat (w.toNat / 0x1000000)) = w := by
  have hw := w.toNat_lt
  unfold wordOfBytes
  simp only [UInt8.toNat_ofNat']
  rw [← UInt32.toNat_inj, UInt32.toNat_ofNat']
  omega

/-- In each order, the bytes of a word make up the word. -/
theorem exists_bytes_eq (o : ByteOrder) (w : Word) :
    ∃ a b c d, o.bytes w = [a, b, c, d] ∧ o.word a b c d = w := by
  cases o with
  | little => exact ⟨_, _, _, _, rfl, wordOfBytes_ofNat w⟩
  | big => exact ⟨_, _, _, _, rfl, wordOfBytes_ofNat w⟩

/-- In each order, four bytes are those of the word that they make up. -/
@[simp] theorem bytes_word (o : ByteOrder) (a b c d : UInt8) :
    o.bytes (o.word a b c d) = [a, b, c, d] := by
  cases o with
  | little => exact bytesOfWord_wordOfBytes a b c d
  | big => simp only [bytes, word, bytesOfWord_wordOfBytes, List.reverse_cons, List.reverse_nil,
      List.nil_append, List.cons_append]

/-! ## Files -/

theorem encode_cons (o : ByteOrder) (w : Word) (ws : List Word) :
    o.encode (w :: ws) = o.bytes w ++ o.encode ws := List.flatMap_cons

/-- The bytes of words are read back. -/
theorem decode?_encode (o : ByteOrder) (ws : List Word) : o.decode? (o.encode ws) = some ws := by
  induction ws with
  | nil => rfl
  | cons w ws ih =>
    obtain ⟨a, b, c, d, hbytes, hword⟩ := o.exists_bytes_eq w
    rw [encode_cons, hbytes]
    show (o.decode? (o.encode ws)).map (o.word a b c d :: ·) = _
    rw [ih, hword, Option.map_some]

/-- **A file is decoded** in some order exactly to the words that it is the bytes of. -/
theorem decode?_eq_some_iff : o.decode? file = some ws ↔ o.encode ws = file := by
  constructor
  · intro h
    fun_induction decode? o file generalizing ws with
    | case1 =>
      cases h
      rfl
    | case2 a b c d rest ih =>
      obtain ⟨ws, hws, rfl⟩ := Option.map_eq_some_iff.mp h
      rw [encode_cons, bytes_word, ih hws]
      rfl
    | case3 => cases h
  · rintro rfl
    exact decode?_encode o ws

/-- A file is not decoded if its last word is cut off, and only then. -/
theorem decode?_eq_none_iff : o.decode? file = none ↔ ¬ 4 ∣ file.length := by
  fun_induction decode? o file with
  | case1 => simp
  | case2 a b c d rest ih => simp [ih]
  | case3 file hnil hfour =>
    match file with
    | [] => exact absurd rfl hnil
    | [_] | [_, _] | [_, _, _] => simp
    | a :: b :: c :: d :: rest => exact absurd rfl (hfour a b c d rest)

/-- A file is read as big-endian if it starts with the magic number in that order. -/
theorem detect_eq_big_iff : detect file = .big ↔ file.take 4 = [0x07, 0x23, 0x02, 0x03] := by
  have hmagic : ByteOrder.big.bytes magicNumber = [0x07, 0x23, 0x02, 0x03] := by decide
  unfold detect
  rw [hmagic]
  by_cases h : file.take 4 = [0x07, 0x23, 0x02, 0x03]
  · simp [h]
  · simp [h]

/-- Words that start with the magic number are recognised to have the order they are written in. -/
theorem detect_encode (o : ByteOrder) (h : ws.head? = some magicNumber) :
    detect (o.encode ws) = o := by
  obtain ⟨rest, rfl⟩ := List.head?_eq_some_iff.mp h
  have htake : (o.encode (magicNumber :: rest)).take 4 = o.bytes magicNumber := by
    obtain ⟨a, b, c, d, hbytes, -⟩ := o.exists_bytes_eq magicNumber
    rw [encode_cons, hbytes]
    rfl
  unfold detect
  rw [htake]
  cases o with
  | little => exact if_neg (by decide)
  | big => exact if_pos rfl

end ByteOrder

/-- What is said about the binary in a file. -/
def Config.reflectFile (c : Config) (file : List UInt8) : Except Fault (Traced Reflection) := do
  let words ← wordsOfBytes file
  return ({ c with binary := some words } : Config).reflect

/-- **Decoding does not depend on the byte order.** A file is read as big-endian exactly if it
starts with the bytes 07 23 02 03. It is decoded exactly if it has a whole number of words, and its
words, written in the order that it is read in, are the file. Words that start with the magic number
can be written in either order: the same words are read back, and so the same is said about them. -/
theorem wordsOfBytes_exact :
    (∀ file, ByteOrder.detect file = .big ↔ file.take 4 = [0x07, 0x23, 0x02, 0x03]) ∧
    (∀ file f, wordsOfBytes file = .error f ↔ ¬ 4 ∣ file.length ∧ f = .corrupted .partialWord) ∧
    (∀ file ws, wordsOfBytes file = .ok ws ↔ (ByteOrder.detect file).encode ws = file) ∧
    (∀ ws, ws.head? = some magicNumber → ∀ o : ByteOrder, wordsOfBytes (o.encode ws) = .ok ws) ∧
    ∀ ws, ws.head? = some magicNumber → ∀ (o : ByteOrder) (c : Config),
      c.reflectFile (o.encode ws) = .ok ({ c with binary := some ws } : Config).reflect := by
  have hok : ∀ file ws, wordsOfBytes file = .ok ws ↔ (ByteOrder.detect file).encode ws = file := by
    intro file ws
    rw [← ByteOrder.decode?_eq_some_iff]
    unfold wordsOfBytes
    cases (ByteOrder.detect file).decode? file <;> simp
  have hback : ∀ ws, ws.head? = some magicNumber → ∀ o : ByteOrder,
      wordsOfBytes (o.encode ws) = .ok ws := by
    intro ws hws o
    rw [hok, ByteOrder.detect_encode o hws]
  refine ⟨fun file => ByteOrder.detect_eq_big_iff, fun file f => ?_, hok, hback, ?_⟩
  · rw [← ByteOrder.decode?_eq_none_iff (o := ByteOrder.detect file)]
    unfold wordsOfBytes
    cases (ByteOrder.detect file).decode? file <;> simp [eq_comm]
  · intro ws hws o c
    rw [Config.reflectFile, hback ws hws o]
    rfl

/-- The magic number and a version are read back from both orders. -/
theorem sample_wordsOfBytes_exact :
    ByteOrder.big.encode [magicNumber, 0x10000] = [7, 0x23, 2, 3, 0, 1, 0, 0] ∧
    wordsOfBytes [7, 0x23, 2, 3, 0, 1, 0, 0] = .ok [magicNumber, 0x10000] ∧
    ByteOrder.little.encode [magicNumber, 0x10000] = [3, 2, 0x23, 7, 0, 0, 1, 0] ∧
    wordsOfBytes [3, 2, 0x23, 7, 0, 0, 1, 0] = .ok [magicNumber, 0x10000] := by
  have hback := wordsOfBytes_exact.2.2.2.1 [magicNumber, 0x10000] rfl
  have hbig : ByteOrder.big.encode [magicNumber, 0x10000] = [7, 0x23, 2, 3, 0, 1, 0, 0] := by decide
  have hlittle : ByteOrder.little.encode [magicNumber, 0x10000] = [3, 2, 0x23, 7, 0, 0, 1, 0] := by
    decide
  exact ⟨hbig, hbig ▸ hback .big, hlittle, hlittle ▸ hback .little⟩

end ShaderReflect
