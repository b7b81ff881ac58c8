import Mathlib.Data.List.TakeWhile
import ShaderReflect.Binary.Operands

/-!
# Strings in operands

A string literal is read back as it was written, whatever words follow it, and nothing but a literal
is read as a string. A word and its four bytes stand for each other, so a literal is cut off by its
bytes: those of the string, the first NUL, and what fills its word.

* `Literal.decode?_eq_some_iff`: the strings that bytes stand for.
* `Literal.split?_eq_some_iff`, `Literal.split?_eq_none_iff`: where a literal ends, or that it does
  not.
* `Read.string_eq_ok_iff`, `Read.string_fails_iff`: what is read as a string, and what is not.
* `Literal.string_exact`: all of this together.

Specification, 4.1. Which bytes are UTF-8 is settled by `String.fromUTF8?`, which accepts the bytes
of a string and no others: no overlong forms, no surrogates, nothing beyond the last code point. A
string with a NUL in it can be written, but what is read back is the part before the NUL.
-/

namespace ShaderReflect

/-! ## Words and bytes -/

namespace ByteOrder

/-- Four bytes are those of the word that they make. -/
theorem bytesOfWord_wordOfBytes (a b c d : UInt8) :
    bytesOfWord (wordOfBytes a b c d) = [a, b, c, d] := by
  have ha := a.toNat_lt
  have hb := b.toNat_lt
  have hc := c.toNat_lt
  have hd := d.toNat_lt
  have hword : (wordOfBytes a b c d).toNat =
      a.toNat + 0x100 * b.toNat + 0x10000 * c.toNat + 0x1000000 * d.toNat :=
    UInt32.toNat_ofNat_of_lt' (by show _ < 4294967296; omega)
  unfold bytesOfWord
  rw [hword]
  simp only [List.cons.injEq, and_true, ← UInt8.toNat_inj, UInt8.toNat_ofNat']
  omega

end ByteOrder

namespace Literal

open ByteOrder

@[simp] theorem bytes_wordOfBytes (a b c d : UInt8) : bytes (wordOfBytes a b c d) = [a, b, c, d] :=
  bytesOfWord_wordOfBytes a b c d

@[simp] theorem length_bytes (w : Word) : (bytes w).length = 4 := rfl

/-! ## Strings and bytes -/

/-- The bytes of a string in UTF-8, those of one character after the other. -/
def utf8 (s : String) : List UInt8 := s.toList.flatMap String.utf8EncodeChar

/-- An array of bytes is listed from each place on. -/
theorem toList_loop_eq (bs : ByteArray) (i : Nat) (before : List UInt8) :
    ByteArray.toList.loop bs i before = before.reverse ++ bs.data.toList.drop i := by
  fun_induction ByteArray.toList.loop bs i before with
  | case1 i before h ih =>
    have hi : i < bs.data.toList.length := h
    have hget : bs.get! i = bs.data.toList[i] := getElem!_pos bs.data i h
    rw [ih, List.drop_eq_getElem_cons hi, hget, List.reverse_cons, List.append_assoc,
      List.singleton_append]
  | case2 i before h =>
    have hi : bs.data.toList.length ≤ i := Nat.le_of_not_lt h
    rw [List.drop_eq_nil_of_le hi, List.append_nil]

theorem toByteArray_eq (s : String) : s.toByteArray = (utf8 s).toByteArray :=
  String.utf8Encode_toList.symm

theorem toList_toUTF8 (s : String) : s.toUTF8.toList = utf8 s := by
  rw [String.toUTF8_eq_toByteArray, toByteArray_eq]
  exact (toList_loop_eq _ 0 []).trans List.toList_data_toByteArray

theorem pack_eq (s : String) : pack s = packBytes (utf8 s) := by rw [pack, toList_toUTF8]

/-- **Bytes stand for a string** exactly if they are its bytes. -/
theorem decode?_eq_some_iff {bs : List UInt8} {s : String} : decode? bs = some s ↔ utf8 s = bs := by
  have harray : (⟨bs.toArray⟩ : ByteArray) = bs.toByteArray :=
    ByteArray.ext List.data_toByteArray.symm
  have hbytes : s.toByteArray = bs.toByteArray ↔ utf8 s = bs := by
    rw [toByteArray_eq]
    refine ⟨fun h => ?_, congrArg _⟩
    rw [← List.toList_data_toByteArray (l := utf8 s), h, List.toList_data_toByteArray]
  rw [decode?, harray, ← hbytes]
  unfold String.fromUTF8?
  constructor
  · intro h
    split at h
    · cases h
      rfl
    · cases h
  · intro h
    rw [← h, dif_pos s.isValidUTF8]
    rfl

/-- Only NUL has a byte that is zero. -/
theorem zero_mem_utf8EncodeChar_iff (c : Char) : 0 ∈ String.utf8EncodeChar c ↔ c = '\x00' := by
  have hsmall : c = '\x00' ↔ c.val.toNat = 0 := by
    rw [← Char.val_inj, ← UInt32.toNat_inj]
    rfl
  rw [hsmall]
  fun_cases String.utf8EncodeChar c <;>
    simp only [List.mem_cons, List.not_mem_nil, or_false, ← UInt8.toNat_inj, UInt8.toNat_ofNat',
      UInt8.toNat_zero] <;> omega

theorem zero_mem_utf8_iff (s : String) : 0 ∈ utf8 s ↔ '\x00' ∈ s.toList := by
  simp only [utf8, List.mem_flatMap, zero_mem_utf8EncodeChar_iff, exists_eq_right]

/-! ## Where a literal ends -/

variable {ws rest p : List Word} {bs padding : List UInt8}

/-- A literal holds its bytes, a NUL, and zeros up to a whole word. -/
theorem bytes_packBytes (bs : List UInt8) :
    ∃ k ≤ 3, (packBytes bs).flatMap bytes = bs ++ 0 :: List.replicate k 0 := by
  fun_induction packBytes bs with
  | case1 a b c d rest ih =>
    obtain ⟨k, hk, ih⟩ := ih
    exact ⟨k, hk, by simp [ih]⟩
  | case2 a b c => exact ⟨0, by decide, by simp⟩
  | case3 a b => exact ⟨1, by decide, by simp⟩
  | case4 a => exact ⟨2, by decide, by simp⟩
  | case5 => exact ⟨3, by decide, rfl⟩

/-- What stands before the first NUL. -/
theorem takeWhile_ne_zero (h : 0 ∉ bs) (padding : List UInt8) :
    (bs ++ 0 :: padding).takeWhile (· ≠ 0) = bs := by
  have hbs : ∀ b ∈ bs, decide (b ≠ 0) = true := fun b hb =>
    decide_eq_true (ne_of_mem_of_not_mem hb h)
  rw [List.takeWhile_append_of_pos hbs, List.takeWhile_cons_of_neg (by simp), List.append_nil]

/-- A literal ends with the first word that holds a NUL. -/
theorem split?_append (hnul : 0 ∉ bs) (hp : p.flatMap bytes = bs ++ 0 :: padding)
    (hpadding : padding.length ≤ 3) (rest : List Word) : split? (p ++ rest) = some (bs, rest) := by
  induction p generalizing bs with
  | nil => simp at hp
  | cons w p ih =>
    rw [List.flatMap_cons] at hp
    have hlength := congrArg List.length hp
    simp only [List.length_append, length_bytes, List.length_cons] at hlength
    rw [List.cons_append, split?]
    by_cases hw : 4 ≤ bs.length
    · -- The word is one of the string, and the NUL is further on.
      obtain ⟨more, rfl⟩ : ∃ more, bs = bytes w ++ more := by
        have htake := congrArg (List.take 4) hp
        rw [List.take_left' (length_bytes w), List.take_append_of_le_length hw] at htake
        exact ⟨bs.drop 4, by rw [htake, List.take_append_drop]⟩
      rw [List.append_assoc, List.append_cancel_left_eq] at hp
      rw [List.mem_append, not_or] at hnul
      rw [if_neg hnul.1, ih hnul.2 hp, Option.map_some]
    · -- The NUL is in this word, which leaves none to be filled.
      have hnil : p = [] := by
        cases p with
        | nil => rfl
        | cons w' p =>
          rw [List.flatMap_cons, List.length_append, length_bytes] at hlength
          omega
      subst hnil
      rw [List.flatMap_nil, List.append_nil] at hp
      rw [hp, if_pos (by simp), takeWhile_ne_zero hnul, List.nil_append]

/-- **A literal is cut off** by its bytes: those before the first NUL, the NUL, and what fills its
word. -/
theorem split?_eq_some_iff : split? ws = some (bs, rest) ↔ 0 ∉ bs ∧ ∃ p padding, ws = p ++ rest ∧
    p.flatMap bytes = bs ++ 0 :: padding ∧ padding.length ≤ 3 := by
  constructor
  · intro h
    induction ws generalizing bs with
    | nil => cases h
    | cons w ws ih =>
      unfold split? at h
      split at h
      · rename_i hw
        obtain ⟨before, padding, hbytes, hnul⟩ := List.eq_append_cons_of_mem hw
        rw [hbytes, takeWhile_ne_zero hnul] at h
        cases h
        have hlength := congrArg List.length hbytes
        simp only [List.length_append, length_bytes, List.length_cons] at hlength
        exact ⟨hnul, [w], padding, rfl, by simpa using hbytes, by omega⟩
      · rename_i hw
        obtain ⟨⟨found, after⟩, hfound, heq⟩ := Option.map_eq_some_iff.mp h
        cases heq
        obtain ⟨hnul, p, padding, rfl, hp, hpadding⟩ := ih hfound
        refine ⟨?_, w :: p, padding, rfl, ?_, hpadding⟩
        · rw [List.mem_append, not_or]
          exact ⟨hw, hnul⟩
        · rw [List.flatMap_cons, hp, List.append_assoc]
  · rintro ⟨hnul, p, padding, rfl, hp, hpadding⟩
    exact split?_append hnul hp hpadding rest

/-- **No literal is cut off** exactly if no word holds a NUL. -/
theorem split?_eq_none_iff : split? ws = none ↔ ∀ w ∈ ws, 0 ∉ bytes w := by
  induction ws with
  | nil => exact iff_of_true rfl fun _ h => absurd h List.not_mem_nil
  | cons w ws ih =>
    rw [List.forall_mem_cons, ← ih, split?]
    split
    · rename_i hw
      exact iff_of_false (by simp) fun h => h.1 hw
    · rename_i hw
      rw [Option.map_eq_none_iff, and_iff_right hw]

/-- The bytes of a literal are those before the first NUL. -/
theorem eq_takeWhile_of_split? (h : split? ws = some (bs, rest)) :
    bs = (ws.flatMap bytes).takeWhile (· ≠ 0) := by
  obtain ⟨hnul, p, padding, rfl, hp, -⟩ := split?_eq_some_iff.mp h
  rw [List.flatMap_append, hp, List.append_assoc, List.cons_append, takeWhile_ne_zero hnul]

end Literal

/-! ## Reading a string -/

namespace Read

open Literal

variable {ws rest : List Word} {s : String}

/-- **A string is read** where a literal with its bytes is cut off. -/
theorem string_eq_ok_iff : string ws = (.ok s, rest) ↔ split? ws = some (utf8 s, rest) := by
  unfold string
  cases ws with
  | nil => exact iff_of_false (fun h => by cases h) fun h => by cases h
  | cons w ws =>
    cases hsplit : split? (w :: ws) with
    | none => exact iff_of_false (fun h => by cases h) fun h => by cases h
    | some x =>
      obtain ⟨bs, after⟩ := x
      simp only [Option.some.injEq, Prod.mk.injEq]
      cases hdecode : decode? bs with
      | none =>
        refine iff_of_false (fun h => by cases h) fun h => ?_
        rw [decode?_eq_some_iff.mpr h.1.symm] at hdecode
        cases hdecode
      | some t =>
        rw [← decode?_eq_some_iff.mp hdecode]
        have hinj : utf8 t = utf8 s ↔ t = s := by
          rw [← decode?_eq_some_iff, decode?_eq_some_iff.mpr rfl, Option.some.injEq, eq_comm]
        simp [hinj]

/-- **No string is read** if there is no word, if no word holds a NUL, or if the bytes before the
first NUL are those of no string. -/
theorem string_fails_iff : (∃ e, (string ws).1 = .error e) ↔ ws = [] ∨ (∀ w ∈ ws, 0 ∉ bytes w) ∨
    ∀ s, utf8 s ≠ (ws.flatMap bytes).takeWhile (· ≠ 0) := by
  unfold string
  cases ws with
  | nil => exact iff_of_true ⟨_, rfl⟩ (.inl rfl)
  | cons w ws =>
    rw [← split?_eq_none_iff]
    cases hsplit : split? (w :: ws) with
    | none => exact iff_of_true ⟨_, rfl⟩ (.inr (.inl rfl))
    | some x =>
      obtain ⟨bs, after⟩ := x
      rw [← eq_takeWhile_of_split? hsplit]
      dsimp only
      cases hdecode : decode? bs with
      | none =>
        refine iff_of_true ⟨_, rfl⟩ (.inr (.inr fun s hs => ?_))
        rw [decode?_eq_some_iff.mpr hs] at hdecode
        cases hdecode
      | some t =>
        refine iff_of_false (fun ⟨e, he⟩ => by cases he) ?_
        rintro (h | h | h)
        · cases h
        · cases h
        · exact h t (decode?_eq_some_iff.mp hdecode)

end Read

namespace Literal

/-- **Strings in operands round-trip.** A literal holds the bytes of its string, a NUL, and zeros up
to a whole word. A string without NUL is read back from its literal, and the words after that are
left. Whenever a string is read, it has no NUL, and the words that are gone hold its bytes, a NUL
and at most three more. No string is read exactly if there is no word, or no NUL in any word, or the
bytes before the first NUL are not those of a string in UTF-8. -/
theorem string_exact :
    (∀ s, ∃ k ≤ 3, (pack s).flatMap bytes = utf8 s ++ 0 :: List.replicate k 0) ∧
    (∀ s rest, '\x00' ∉ s.toList → Read.string (pack s ++ rest) = (.ok s, rest)) ∧
    (∀ ws s rest, Read.string ws = (.ok s, rest) → '\x00' ∉ s.toList ∧ ∃ p padding,
      ws = p ++ rest ∧ p.flatMap bytes = utf8 s ++ 0 :: padding ∧ padding.length ≤ 3) ∧
    ∀ ws, (∃ e, (Read.string ws).1 = .error e) ↔ ws = [] ∨ (∀ w ∈ ws, 0 ∉ bytes w) ∨
      ∀ s, utf8 s ≠ (ws.flatMap bytes).takeWhile (· ≠ 0) := by
  have hpack : ∀ s, ∃ k ≤ 3, (pack s).flatMap bytes = utf8 s ++ 0 :: List.replicate k 0 :=
    fun s => by rw [pack_eq]; exact bytes_packBytes (utf8 s)
  refine ⟨hpack, fun s rest hnul => ?_, fun ws s rest h => ?_, fun ws => Read.string_fails_iff⟩
  · obtain ⟨k, hk, hbytes⟩ := hpack s
    rw [← zero_mem_utf8_iff] at hnul
    rw [Read.string_eq_ok_iff]
    exact split?_append hnul hbytes (by rwa [List.length_replicate]) rest
  · rw [Read.string_eq_ok_iff, split?_eq_some_iff, zero_mem_utf8_iff] at h
    exact h

/-- A string whose last character lies across two words is read back from its literal, and the next
word is left. -/
theorem sample_string_exact : '\x00' ∉ "abc€".toList ∧ pack "abc€" = [0xE2636261, 0xAC82] ∧
    Read.string [0xE2636261, 0xAC82, 7] = (.ok "abc€", [7]) := by
  have hnul : '\x00' ∉ "abc€".toList := by decide
  have hpack : pack "abc€" = [0xE2636261, 0xAC82] := by
    rw [pack_eq]
    decide
  refine ⟨hnul, hpack, ?_⟩
  have h := string_exact.2.1 "abc€" [7] hnul
  rwa [hpack] at h

end Literal

end ShaderReflect
