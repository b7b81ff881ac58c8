import Mathlib.Data.Nat.Bitwise
import ShaderReflect.Proofs.Binary.Rewriting

/-!
# Decoding is exact

Reading a binary and writing it are inverse to each other. A header is read exactly from its own
five words, and the instructions that a body yields are those whose words it is made of. Where the
words of a body are not those of instructions, it yields one fault, for the first word that cannot
start an instruction, and nothing after it.

* `Header.read_eq_ok_iff`: the headers that are read.
* `Instruction.stream_cases`: what a body yields, and what it is made of.
* `Instruction.nth?_eq`: asking for items one at a time yields the stream, and then nothing.
* `stream_exact`: all of this together, with the other direction.

Specification, 4.1. An instruction can be written if its opcode has 16 bits and it has at most 65534
operands (`Instruction.Encodable`); every instruction that is cut off a body can. The first word
that is written is the one of the specification, with the length in the high half.
-/

namespace ShaderReflect

/-! ## Headers -/

namespace Header

/-- The word that holds a version, its parts in the two middle bytes. -/
def versionWord (major minor : Nat) : Word := UInt32.ofNat (major * 0x10000 + minor * 0x100)

/-- The words of a header. -/
def words (h : Header) : List Word :=
  [h.magic, versionWord h.major h.minor, h.generator, h.bound, h.schema]

/-- A header that a binary may have. -/
structure Supported (h : Header) : Prop where
  magic : h.magic = 0x07230203
  major : h.major = 1
  minor : h.minor ≤ 6
  bound : h.bound ≠ 0

instance (h : Header) : Decidable h.Supported :=
  decidable_of_iff (h.magic = 0x07230203 ∧ h.major = 1 ∧ h.minor ≤ 6 ∧ h.bound ≠ 0)
    ⟨fun ⟨h₁, h₂, h₃, h₄⟩ => ⟨h₁, h₂, h₃, h₄⟩, fun ⟨h₁, h₂, h₃, h₄⟩ => ⟨h₁, h₂, h₃, h₄⟩⟩

/-- The padding of a version word is its outer two bytes. -/
theorem and_versionPadding_eq_zero_iff {w : Word} :
    w &&& versionPadding = 0 ↔ w.toNat % 0x100 = 0 ∧ w.toNat / 0x1000000 = 0 := by
  have hw : w.toNat < 0x100000000 := w.toNat_lt
  have hlow : (w.toNat &&& 0xFF0000FF) % 2 ^ 8 = w.toNat % 2 ^ 8 := by
    rw [Nat.and_mod_two_pow]
    exact Nat.and_two_pow_sub_one_of_lt_two_pow (Nat.mod_lt _ (by decide))
  have hmiddle : (w.toNat &&& 0xFF0000FF) / 2 ^ 8 % 2 ^ 16 = 0 := by
    rw [Nat.and_div_two_pow, Nat.and_mod_two_pow]
    exact Nat.and_zero _
  have hhigh : (w.toNat &&& 0xFF0000FF) / 2 ^ 24 = w.toNat / 2 ^ 24 := by
    rw [Nat.and_div_two_pow]
    exact Nat.and_two_pow_sub_one_of_lt_two_pow (n := 8) (by omega)
  rw [← UInt32.toNat_inj, UInt32.toNat_and]
  show (w.toNat &&& 0xFF0000FF) = 0 ↔ _
  omega

/-- A version word without padding holds the two parts that are read from it. -/
theorem eq_versionWord_iff {w : Word} {major minor : Nat} (hmajor : major < 0x100)
    (hminor : minor < 0x100) : w = versionWord major minor ↔
      w &&& versionPadding = 0 ∧ w.toNat / 0x10000 % 0x100 = major ∧
        w.toNat / 0x100 % 0x100 = minor := by
  have hword : (versionWord major minor).toNat = major * 0x10000 + minor * 0x100 :=
    UInt32.toNat_ofNat_of_lt' (by show _ < 4294967296; omega)
  rw [and_versionPadding_eq_zero_iff, ← UInt32.toNat_inj, hword]
  omega

/-- **A header is read from its words**, if it is supported, and from no others. -/
theorem read_eq_ok_iff {ws body : List Word} {h : Header} :
    read ws = .ok (h, body) ↔ h.Supported ∧ ws = h.words ++ body := by
  constructor
  · intro hread
    unfold read at hread
    split at hread
    · rename_i magic version generator bound schema rest
      simp only at hread
      repeat' split at hread
      all_goals cases hread
      rename_i hmagic hpadding hversion hbound
      rw [ne_eq, not_not] at hmagic hpadding
      simp only [supportedMajor, maxMinor, not_or, not_not, gt_iff_lt, not_lt] at hversion
      refine ⟨⟨hmagic, hversion.1, hversion.2, hbound⟩, ?_⟩
      have hw := (eq_versionWord_iff (w := version) (Nat.mod_lt _ (by decide))
        (Nat.mod_lt _ (by decide))).mpr ⟨hpadding, rfl, rfl⟩
      rw [words, ← hw]
      rfl
    · cases hread
  · rintro ⟨⟨hmagic, hmajor, hminor, hbound⟩, rfl⟩
    obtain ⟨magic, major, minor, generator, bound, schema⟩ := h
    simp only at hmagic hmajor hminor hbound
    obtain ⟨hpadding, hmajor', hminor'⟩ := (eq_versionWord_iff (by omega) (by omega)).mp
      (rfl : versionWord major minor = versionWord major minor)
    have hversion : ¬(major ≠ supportedMajor ∨ minor > maxMinor) := by
      simp only [supportedMajor, maxMinor]
      omega
    simp only [words, List.cons_append, List.nil_append, read, hpadding, hmajor', hminor',
      magicNumber, hmagic, hbound, ne_eq, not_true_eq_false, if_false, hversion]
    rfl

end Header

/-! ## Bodies -/

namespace Instruction

variable {i : Instruction} {is : List Instruction} {body left : List Word}

/-- The first word of an instruction holds the length in its high half and the opcode in its low
half. -/
theorem words_eq (h : i.Encodable) :
    i.words = (UInt32.ofNat (i.operands.length + 1) <<< 16 ||| i.opcode) :: i.operands := by
  obtain ⟨hop, hcount⟩ := h
  unfold wordCount at hcount
  have hlength : (UInt32.ofNat (i.operands.length + 1)).toNat = i.operands.length + 1 :=
    UInt32.toNat_ofNat_of_lt' (by show _ < 4294967296; omega)
  have hshift : (UInt32.ofNat (i.operands.length + 1) <<< 16).toNat =
      (i.operands.length + 1) <<< 16 := by
    rw [UInt32.toNat_shiftLeft, hlength]
    refine Nat.mod_eq_of_lt ?_
    rw [Nat.shiftLeft_eq]
    show _ * 65536 < 4294967296
    omega
  have hword : (UInt32.ofNat (i.wordCount * 0x10000 + i.opcode.toNat)).toNat =
      (i.operands.length + 1) * 2 ^ 16 + i.opcode.toNat :=
    UInt32.toNat_ofNat_of_lt' (by unfold wordCount; show _ < 4294967296; omega)
  have hfirst : UInt32.ofNat (i.wordCount * 0x10000 + i.opcode.toNat) =
      UInt32.ofNat (i.operands.length + 1) <<< 16 ||| i.opcode := by
    rw [← UInt32.toNat_inj, UInt32.toNat_or, hshift, hword, ← Nat.shiftLeft_add_eq_or_of_lt hop,
      Nat.shiftLeft_eq]
  rw [words, hfirst]

/-- Why no instruction can be cut off some words: the first of them says that the instruction has
no words, or more than there are. -/
inductive Uncuttable : List Word → Corruption → Prop
  | zero {first : Word} {rest : List Word} (h : first.toNat / 0x10000 = 0) :
    Uncuttable (first :: rest) (.zeroWordCount (UInt32.ofNat (first.toNat % 0x10000)))
  | truncated {first : Word} {rest : List Word}
    (h : (first :: rest).length < first.toNat / 0x10000) :
    Uncuttable (first :: rest) (.truncated (UInt32.ofNat (first.toNat % 0x10000)))

theorem stream_nil : stream [] = [] := stream_eq_nil rfl

/-- What no instruction can be cut off is empty, or yields one fault. -/
theorem stream_of_not_next? (h : ∀ i rest, next? left ≠ some (.ok i, rest)) :
    left = [] ∨
      ∃ cause, Uncuttable left cause ∧ stream left = [.error (.corrupted cause)] := by
  cases left with
  | nil => exact .inl rfl
  | cons first rest =>
    refine .inr ?_
    by_cases hzero : first.toNat / 0x10000 = 0
    · have hnext : next? (first :: rest) = some (.error (.corrupted
          (.zeroWordCount (UInt32.ofNat (first.toNat % 0x10000)))), []) := by
        simp only [next?]
        rw [if_pos hzero]
      exact ⟨_, .zero hzero, by rw [stream_of_next? hnext, stream_nil]⟩
    · by_cases hlong : first.toNat / 0x10000 > rest.length + 1
      · have hnext : next? (first :: rest) = some (.error (.corrupted
            (.truncated (UInt32.ofNat (first.toNat % 0x10000)))), []) := by
          simp only [next?]
          rw [if_neg hzero, if_pos hlong]
        exact ⟨_, .truncated hlong, by rw [stream_of_next? hnext, stream_nil]⟩
      · have hnext : next? (first :: rest) = some (.ok ⟨UInt32.ofNat (first.toNat % 0x10000),
            rest.take (first.toNat / 0x10000 - 1)⟩, rest.drop (first.toNat / 0x10000 - 1)) := by
          simp only [next?]
          rw [if_neg hzero, if_neg hlong]
        exact absurd hnext (h _ _)

/-- **What a body yields**: the instructions whose words it is made of, and one fault if more words
follow them. -/
theorem stream_cases (body : List Word) : ∃ is : List Instruction, (∀ i ∈ is, i.Encodable) ∧
    (stream body = is.map .ok ∧ body = is.flatMap words ∨
      ∃ left cause, stream body = is.map .ok ++ [.error (.corrupted cause)] ∧
        body = is.flatMap words ++ left ∧ Uncuttable left cause) := by
  refine ⟨(cut body).1, encodable_of_mem_cut body, ?_⟩
  have hbody := flatMap_words_cut body
  have hstream := stream_eq body
  rcases stream_of_not_next? (not_next?_cut body) with hleft | ⟨cause, hcause, hleft⟩
  · rw [hleft, List.append_nil] at hbody
    rw [hleft, stream_nil, List.append_nil] at hstream
    exact .inl ⟨hstream, hbody.symm⟩
  · rw [hleft] at hstream
    exact .inr ⟨(cut body).2, cause, hstream, hbody.symm, hcause⟩

/-- The words of instructions yield these instructions. -/
theorem stream_flatMap_words (h : ∀ i ∈ is, i.Encodable) :
    stream (is.flatMap words) = is.map .ok := by
  have happend := stream_flatMap_words_append h []
  rwa [stream_nil, List.append_nil, List.append_nil] at happend

/-! ## One item at a time -/

/-- What is left of a body after `n` requests for an item. A request that yields nothing changes
nothing. -/
def after (body : List Word) : Nat → List Word
  | 0 => body
  | n + 1 => ((next? (after body n)).map Prod.snd).getD (after body n)

/-- What the request after `n` others yields. -/
def nth? (body : List Word) (n : Nat) : Option (Except Fault Instruction) :=
  (next? (after body n)).map Prod.fst

theorem stream_after (body : List Word) (n : Nat) :
    stream (after body n) = (stream body).drop n := by
  induction n with
  | zero => rfl
  | succ n ih =>
    rw [← List.tail_drop, ← ih, after]
    cases hnext : next? (after body n) with
    | none =>
      rw [stream_eq_nil hnext]
      exact stream_eq_nil hnext
    | some x =>
      obtain ⟨item, rest⟩ := x
      rw [stream_of_next? hnext]
      rfl

/-- **The items that are asked for** are those of the stream in their order; when these have been
yielded, nothing is, however often it is asked for. -/
theorem nth?_eq (body : List Word) (n : Nat) : nth? body n = (stream body)[n]? := by
  rw [← List.head?_drop, ← stream_after, nth?]
  cases hnext : next? (after body n) with
  | none =>
    rw [stream_eq_nil hnext]
    rfl
  | some x =>
    obtain ⟨item, rest⟩ := x
    rw [stream_of_next? hnext]
    rfl

end Instruction

open Instruction

/-- **Decoding is lossless and exact.** A header is read exactly from its words. A body yields the
instructions that it is made of, then a fault if it is not made of instructions alone, and then
nothing any more. What has been written as a header and instructions is read as these. -/
theorem stream_exact :
    (∀ i : Instruction, i.Encodable →
      i.words = (UInt32.ofNat (i.operands.length + 1) <<< 16 ||| i.opcode) :: i.operands) ∧
    (∀ ws header body,
      Header.read ws = .ok (header, body) ↔ header.Supported ∧ ws = header.words ++ body) ∧
    (∀ body, (∀ n, nth? body n = (stream body)[n]?) ∧
      ∃ is : List Instruction, (∀ i ∈ is, i.Encodable) ∧
        (stream body = is.map .ok ∧ body = is.flatMap words ∨
          ∃ left cause, stream body = is.map .ok ++ [.error (.corrupted cause)] ∧
            body = is.flatMap words ++ left ∧ Uncuttable left cause)) ∧
    ∀ (header : Header) (is : List Instruction), header.Supported → (∀ i ∈ is, i.Encodable) →
      Header.read (header.words ++ is.flatMap words) = .ok (header, is.flatMap words) ∧
        stream (is.flatMap words) = is.map .ok :=
  ⟨fun _ => words_eq, fun _ _ _ => Header.read_eq_ok_iff,
    fun body => ⟨nth?_eq body, stream_cases body⟩,
    fun _ _ hheader his => ⟨Header.read_eq_ok_iff.mpr ⟨hheader, rfl⟩, stream_flatMap_words his⟩⟩

/-- Two instructions of different lengths behind a header are read back. -/
theorem sample_stream_exact :
    (Header.mk 0x07230203 1 3 8 10 0).Supported ∧
    (∀ i ∈ [Instruction.mk 17 [1], Instruction.mk 0 []], i.Encodable) ∧
    Header.read [0x07230203, 0x00010300, 8, 10, 0, 0x00020011, 1, 0x00010000] =
      .ok (Header.mk 0x07230203 1 3 8 10 0, [0x00020011, 1, 0x00010000]) ∧
    stream [0x00020011, 1, 0x00010000] =
      [.ok (Instruction.mk 17 [1]), .ok (Instruction.mk 0 [])] := by
  have hheader : (Header.mk 0x07230203 1 3 8 10 0).Supported := by decide
  have his : ∀ i ∈ [Instruction.mk 17 [1], Instruction.mk 0 []], i.Encodable := by decide
  exact ⟨hheader, his, stream_exact.2.2.2 _ _ hheader his⟩

end ShaderReflect
