import Mathlib.Data.Nat.Digits.Lemmas
import ShaderReflect.Value.Scalar

/-!
# Numbers in words and in bytes

A number is declared by words and overridden by bytes. `Scalar.literalLow` and `Scalar.literalHigh`
are the words that declare a number given by bytes. What is beyond the bytes in the last word is
filled with any byte, as it does not count.

* `Scalar.ofBits?_congr`: bits beyond the width do not count.
* `Scalar.ofWords?_literal`: the words declare the number that the bytes give.

Specification, 4.3 (an override holds the bytes of the scalar, a literal its words, both low-order
first). The bytes are those that the width asks for, rounded up, so at most seven bits of the last
byte are beyond it.
-/

namespace ShaderReflect

/-- The width of a numeric type. -/
def TypeDecl.numberWidth? : TypeDecl → Option Word
  | .int width _ | .float width => some width
  | _ => none

namespace Scalar

variable {fill : UInt8} {bytes : List UInt8} {type : TypeDecl} {width : Word}

/-! ## Numbers of bytes -/

theorem numberOfBytes_eq_ofDigits (bytes : List UInt8) :
    numberOfBytes bytes = Nat.ofDigits 256 (bytes.map UInt8.toNat) := by
  induction bytes with
  | nil => rfl
  | cons b bs ih => rw [numberOfBytes, List.map_cons, Nat.ofDigits_cons, ih]

theorem numberOfBytes_append (xs ys : List UInt8) :
    numberOfBytes (xs ++ ys) = numberOfBytes xs + 256 ^ xs.length * numberOfBytes ys := by
  simp only [numberOfBytes_eq_ofDigits, List.map_append, Nat.ofDigits_append, List.length_map]

theorem numberOfBytes_lt (bytes : List UInt8) : numberOfBytes bytes < 256 ^ bytes.length := by
  have hdigits : ∀ d ∈ bytes.map UInt8.toNat, d < 256 := fun d hd => by
    obtain ⟨b, -, rfl⟩ := List.mem_map.mp hd
    exact b.toNat_lt
  rw [numberOfBytes_eq_ofDigits, ← List.length_map (f := UInt8.toNat)]
  exact Nat.ofDigits_lt_base_pow_length (by decide) hdigits

/-! ## Words -/

/-- The word of the first four bytes; bytes that are missing are filled in. -/
def wordOfBytes (fill : UInt8) (bytes : List UInt8) : Word :=
  UInt32.ofNat (numberOfBytes ((bytes ++ List.replicate 4 fill).take 4))

/-- The low-order word of a number that is given by bytes. -/
def literalLow (fill : UInt8) (bytes : List UInt8) : Word := wordOfBytes fill bytes

/-- The other word of a number that is given by bytes, if it has one. -/
def literalHigh (fill : UInt8) (bytes : List UInt8) : List Word :=
  if bytes.length ≤ 4 then [] else [wordOfBytes fill (bytes.drop 4)]

theorem toNat_wordOfBytes (fill : UInt8) (bytes : List UInt8) :
    (wordOfBytes fill bytes).toNat =
      numberOfBytes ((bytes ++ List.replicate 4 fill).take 4) := by
  have hlt := numberOfBytes_lt ((bytes ++ List.replicate 4 fill).take 4)
  have hlength : ((bytes ++ List.replicate 4 fill).take 4).length = 4 := by
    simp
  rw [hlength] at hlt
  exact UInt32.toNat_ofNat_of_lt' hlt

/-- The words of a number hold its bytes with others after them. -/
theorem exists_literal_eq (fill : UInt8) (h : bytes.length ≤ 8) : ∃ more,
    (literalLow fill bytes).toNat + 0x100000000 * ((literalHigh fill bytes).headD 0).toNat =
      numberOfBytes (bytes ++ more) := by
  unfold literalLow literalHigh
  rw [toNat_wordOfBytes, List.take_append]
  split
  · rename_i hshort
    refine ⟨(List.replicate 4 fill).take (4 - bytes.length), ?_⟩
    rw [List.take_of_length_le hshort]
    rfl
  · rename_i hlong
    have hfour : (bytes.take 4).length = 4 := by
      rw [List.length_take]
      omega
    have hdrop : (bytes.drop 4).length ≤ 4 := by
      rw [List.length_drop]
      omega
    have hzero : 4 - bytes.length = 0 := by omega
    have hsplit : ∀ more, bytes ++ more = bytes.take 4 ++ (bytes.drop 4 ++ more) := fun more => by
      rw [← List.append_assoc, List.take_append_drop]
    refine ⟨(List.replicate 4 fill).take (4 - (bytes.drop 4).length), ?_⟩
    rw [hzero, List.take_zero, List.append_nil, List.headD_cons, toNat_wordOfBytes,
      List.take_append, List.take_of_length_le hdrop, hsplit, numberOfBytes_append (bytes.take 4),
      hfour]
    rfl

/-! ## Bits -/

/-- Bits beyond the width are dropped. -/
theorem lowBits_congr (hw : width.toNat ≤ 64) {m n : Nat}
    (h : m % 2 ^ width.toNat = n % 2 ^ width.toNat) :
    lowBits width (BitVec.ofNat 64 m) = lowBits width (BitVec.ofNat 64 n) := by
  have hbits : BitVec.ofNat width.toNat m = BitVec.ofNat width.toNat n :=
    BitVec.eq_of_toNat_eq (by rw [BitVec.toNat_ofNat, BitVec.toNat_ofNat, h])
  unfold lowBits
  split
  · rw [BitVec.setWidth_ofNat_of_le hw, BitVec.setWidth_ofNat_of_le hw, hbits]
  · have hall : width.toNat = 64 := by omega
    rw [hall] at h
    exact BitVec.eq_of_toNat_eq (by rw [BitVec.toNat_ofNat, BitVec.toNat_ofNat, h])

theorem ofBits?_congr (ht : type.numberWidth? = some width) (hw : width.toNat ≤ 64) {m n : Nat}
    (h : m % 2 ^ width.toNat = n % 2 ^ width.toNat) :
    ofBits? type (BitVec.ofNat 64 m) = ofBits? type (BitVec.ofNat 64 n) := by
  cases type with
  | int w signed =>
    cases ht
    simp only [ofBits?, ofIntBits?, lowBits_congr hw h]
  | float w =>
    cases ht
    simp only [ofBits?, lowBits_congr hw h]
  | _ => cases ht

/-- **The words declare the number that the bytes give.** -/
theorem ofWords?_literal (ht : type.numberWidth? = some width) (hw : width.toNat ≤ 64)
    (hlength : bytes.length = TypeDecl.bytesOfBits width) (hne : bytes ≠ []) :
    ofWords? type (literalLow fill bytes) (literalHigh fill bytes) = ofBytes? type bytes := by
  have hpos : 0 < bytes.length := List.length_pos_of_ne_nil hne
  have hle : bytes.length ≤ 8 := by
    rw [hlength, TypeDecl.bytesOfBits]
    omega
  have hbytes : ofBytes? type bytes = ofBits? type (BitVec.ofNat 64 (numberOfBytes bytes)) := by
    cases type with
    | bool => cases ht
    | _ => exact if_pos ⟨hpos, hle⟩
  obtain ⟨more, hmore⟩ := exists_literal_eq fill hle
  rw [hbytes, ofWords?, bitsOfWords, hmore]
  -- The bytes that are filled in start at or beyond the width.
  have hbeyond : 2 ^ width.toNat ∣ 256 ^ bytes.length := by
    rw [show 256 = 2 ^ 8 from rfl, ← Nat.pow_mul]
    refine Nat.pow_dvd_pow 2 ?_
    rw [hlength, TypeDecl.bytesOfBits]
    omega
  refine ofBits?_congr ht hw ?_
  rw [numberOfBytes_append, Nat.add_mod,
    Nat.mod_eq_zero_of_dvd (Nat.dvd_trans hbeyond (Nat.dvd_mul_right _ _)), Nat.add_zero,
    Nat.mod_mod]

end Scalar

end ShaderReflect
