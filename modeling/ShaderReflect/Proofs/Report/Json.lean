import Mathlib.Data.List.Basic
import ShaderReflect.Report.Json

/-!
# What the text of a JSON value says

A text says a JSON value by the grammar of JSON, which leaves open where white space stands between
tokens and which characters of a string are escaped. `Json.Says` is that grammar, for the values
that a report is made of: numbers are natural, and the fields of an object are those of the text, in
the order of the text.

The grammar knows nothing of how a value is written. What `Json.pretty` writes is one of the texts
that say the value, whatever the value is: strings may hold quotes and control characters, and lists
may be empty.

Results:
* `Json.escapes_escapeChar`: a character in a string is written as itself, or by one of its escapes.
* `Json.says_quote`, `Json.says_number`: strings and numbers.
* `Json.says_render`: a value at any level of indentation.
* `Json.says_pretty`: a whole document, with white space around it.
-/

namespace ShaderReflect.Json

/-! ## The grammar -/

/-- White space between tokens. -/
def IsSpace (cs : List Char) : Prop := ∀ c ∈ cs, c ∈ [' ', '\n', '\r', '\t']

instance (cs : List Char) : Decidable (IsSpace cs) := List.decidableBAll _ cs

/-- The value of a hexadecimal digit. -/
def hexDigit? (c : Char) : Option Nat :=
  if '0' ≤ c ∧ c ≤ '9' then some (c.toNat - '0'.toNat)
  else if 'a' ≤ c ∧ c ≤ 'f' then some (c.toNat - 'a'.toNat + 10)
  else if 'A' ≤ c ∧ c ≤ 'F' then some (c.toNat - 'A'.toNat + 10)
  else none

/-- The value of hexadecimal digits. -/
def hexNumber? (ds : List Char) : Option Nat :=
  ds.foldlM (fun n d => (16 * n + ·) <$> hexDigit? d) 0

/-- What may stand for a character between quotes. -/
inductive Escapes : List Char → Char → Prop
  | plain {c : Char} (hprintable : 32 ≤ c.toNat) (hquote : c ≠ '"') (hbackslash : c ≠ '\\') :
    Escapes [c] c
  | quote : Escapes ['\\', '"'] '"'
  | backslash : Escapes ['\\', '\\'] '\\'
  | slash : Escapes ['\\', '/'] '/'
  | backspace : Escapes ['\\', 'b'] '\x08'
  | formFeed : Escapes ['\\', 'f'] '\x0c'
  | lineFeed : Escapes ['\\', 'n'] '\n'
  | carriageReturn : Escapes ['\\', 'r'] '\r'
  | tab : Escapes ['\\', 't'] '\t'
  | unicode {ds : List Char} {c : Char} (hlength : ds.length = 4)
    (hvalue : hexNumber? ds = some c.toNat) : Escapes ('\\' :: 'u' :: ds) c

/-- What may stand for characters between quotes. -/
inductive SaysChars : List Char → List Char → Prop
  | nil : SaysChars [] []
  | cons {ds text : List Char} {c : Char} {cs : List Char} (h : Escapes ds c)
    (hs : SaysChars text cs) : SaysChars (ds ++ text) (c :: cs)

/-- The digits of a number: at least one, and a leading zero only if there is no other. -/
structure IsNumeral (ds : List Char) : Prop where
  digits : ∀ d ∈ ds, d.isDigit = true
  nonempty : ds ≠ []
  leading : ds.head? = some '0' → ds = ['0']

mutual

/-- A text says a value. -/
inductive Says : List Char → Json → Prop
  | spaced {before text after : List Char} {x : Json} (hbefore : IsSpace before)
    (hafter : IsSpace after) (h : Says text x) : Says (before ++ text ++ after) x
  | null : Says "null".toList .null
  | true : Says "true".toList (.bool Bool.true)
  | false : Says "false".toList (.bool Bool.false)
  | number {ds : List Char} (h : IsNumeral ds) : Says ds (.number (Nat.ofDigitChars 10 ds 0))
  | string {text : List Char} {s : String} (h : SaysChars text s.toList) :
    Says ('"' :: text ++ ['"']) (.string s)
  | noItems {space : List Char} (h : IsSpace space) : Says ('[' :: space ++ [']']) (.array [])
  | items {text : List Char} {xs : List Json} (h : SaysItems text xs) :
    Says ('[' :: text ++ [']']) (.array xs)
  | noFields {space : List Char} (h : IsSpace space) :
    Says ('\x7b' :: space ++ ['\x7d']) (.object [])
  | fields {text : List Char} {fs : List (String × Json)} (h : SaysFields text fs) :
    Says ('\x7b' :: text ++ ['\x7d']) (.object fs)

/-- A text says one or more values, with commas between them. -/
inductive SaysItems : List Char → List Json → Prop
  | last {text : List Char} {x : Json} (h : Says text x) : SaysItems text [x]
  | cons {text rest : List Char} {x : Json} {xs : List Json} (h : Says text x)
    (hs : SaysItems rest xs) : SaysItems (text ++ ',' :: rest) (x :: xs)

/-- A text says one or more fields, with commas between them. -/
inductive SaysFields : List Char → List (String × Json) → Prop
  | last {key text : List Char} {name : String} {x : Json} (hkey : Says key (.string name))
    (h : Says text x) : SaysFields (key ++ ':' :: text) [(name, x)]
  | cons {key text rest : List Char} {name : String} {x : Json} {fs : List (String × Json)}
    (hkey : Says key (.string name)) (h : Says text x) (hs : SaysFields rest fs) :
    SaysFields (key ++ ':' :: text ++ ',' :: rest) ((name, x) :: fs)

end

/-! ## White space -/

theorem isSpace_nil : IsSpace [] := by decide

theorem isSpace_newline (level : Nat) : IsSpace (newline level).toList := by
  intro c hc
  simp only [newline, String.toList_append, String.toList_ofList, List.mem_append] at hc
  rcases hc with hc | hc
  · rw [List.mem_singleton.mp hc]
    decide
  · rw [List.eq_of_mem_replicate hc]
    decide

variable {text : List Char} {x : Json}

theorem Says.after_space {space : List Char} (hspace : IsSpace space) (h : Says text x) :
    Says (space ++ text) x := by
  simpa using Says.spaced hspace isSpace_nil h

theorem Says.before_space {space : List Char} (hspace : IsSpace space) (h : Says text x) :
    Says (text ++ space) x := by
  simpa using Says.spaced isSpace_nil hspace h

/-- White space may stand behind the last of the items. -/
theorem SaysItems.before_space {text space : List Char} {xs : List Json} (hspace : IsSpace space)
    (h : SaysItems text xs) : SaysItems (text ++ space) xs := by
  match h with
  | .last h => exact .last (h.before_space hspace)
  | .cons h hs =>
    rw [List.append_assoc]
    exact .cons h (hs.before_space hspace)

theorem SaysFields.before_space {text space : List Char} {fs : List (String × Json)}
    (hspace : IsSpace space) (h : SaysFields text fs) : SaysFields (text ++ space) fs := by
  match h with
  | .last hkey h =>
    rw [List.append_assoc]
    exact .last hkey (h.before_space hspace)
  | .cons hkey h hs =>
    rw [List.append_assoc]
    exact .cons hkey h (hs.before_space hspace)

/-! ## Strings and numbers -/

theorem hex4_of_control : ∀ n < 32, (hex4 n).length = 4 ∧ hexNumber? (hex4 n) = some n := by
  decide

/-- **A character is escaped if it has to be.** -/
theorem escapes_escapeChar (c : Char) : Escapes (escapeChar c) c := by
  unfold escapeChar
  split
  · rename_i h
    subst h
    exact .quote
  split
  · rename_i h
    subst h
    exact .backslash
  split
  · rename_i h
    subst h
    exact .backspace
  split
  · rename_i h
    subst h
    exact .formFeed
  split
  · rename_i h
    subst h
    exact .lineFeed
  split
  · rename_i h
    subst h
    exact .carriageReturn
  split
  · rename_i h
    subst h
    exact .tab
  split
  · rename_i h
    obtain ⟨hlength, hvalue⟩ := hex4_of_control c.toNat h
    exact .unicode hlength hvalue
  · rename_i hquote hbackslash _ _ _ _ _ hprintable
    exact .plain (Nat.le_of_not_lt hprintable) hquote hbackslash

theorem saysChars_escaped (cs : List Char) : SaysChars (cs.flatMap escapeChar) cs := by
  induction cs with
  | nil => exact .nil
  | cons c cs ih => exact .cons (escapes_escapeChar c) ih

theorem says_quote (s : String) : Says (quote s).toList (.string s) := by
  have htext : (quote s).toList = '"' :: s.toList.flatMap escapeChar ++ ['"'] := by
    simp [quote]
  rw [htext]
  exact .string (saysChars_escaped s.toList)

theorem digitChar_eq_zero : ∀ n < 10, n.digitChar = '0' → n = 0 := by
  decide

/-- The digits of a number start with a zero for zero only. The induction takes off the last
digit. -/
theorem eq_zero_of_head?_toDigits (n : Nat) (h : (Nat.toDigits 10 n).head? = some '0') : n = 0 := by
  induction n using Nat.strongRecOn with
  | _ n ih =>
    by_cases hn : n < 10
    · rw [Nat.toDigits_of_lt_base hn, List.head?_cons, Option.some.injEq] at h
      exact digitChar_eq_zero n hn h
    · have hpos : 0 < n / 10 := by omega
      have hsplit := Nat.toDigits_append_toDigits (b := 10) (n := n / 10) (d := n % 10) (by decide)
        hpos (by omega)
      rw [Nat.div_add_mod] at hsplit
      rw [← hsplit, List.head?_append_of_ne_nil _ Nat.toDigits_ne_nil] at h
      have := ih (n / 10) (by omega) h
      omega

theorem isNumeral_toDigits (n : Nat) : IsNumeral (Nat.toDigits 10 n) where
  digits d hd := Nat.isDigit_of_mem_toDigits (by decide) (by decide) hd
  nonempty := Nat.toDigits_ne_nil
  leading h := by
    rw [eq_zero_of_head?_toDigits n h]
    rfl

theorem says_number (n : Nat) : Says (toString n).toList (.number n) := by
  have h := Says.number (isNumeral_toDigits n)
  rwa [Nat.ofDigitChars_ten_toDigits, ← Nat.toList_repr, ← Nat.toString_eq_repr] at h

/-! ## Values -/

section

variable (level : Nat) (y : Json) (xs : List Json) (f : String × Json) (fs : List (String × Json))

theorem toList_render_array : ((Json.array (y :: xs)).render level).toList =
    '[' :: ((renderItems (level + 1) (y :: xs)).toList ++ (newline level).toList) ++ [']'] := by
  simp [render]

theorem toList_render_object : ((Json.object (f :: fs)).render level).toList =
    '\x7b' :: ((renderFields (level + 1) (f :: fs)).toList ++ (newline level).toList) ++
      ['\x7d'] := by
  simp [render]

theorem toList_renderItems (z : Json) : (renderItems level (y :: z :: xs)).toList =
    ((newline level).toList ++ (y.render level).toList) ++
      ',' :: (renderItems level (z :: xs)).toList := by
  simp [renderItems]

theorem toList_renderField : (renderFields level [f]).toList =
    ((newline level).toList ++ (quote f.1).toList) ++
      ':' :: ([' '] ++ (f.2.render level).toList) := by
  simp [renderFields]

theorem toList_renderFields (f' : String × Json) : (renderFields level (f :: f' :: fs)).toList =
    ((newline level).toList ++ (quote f.1).toList) ++ ':' :: ([' '] ++ (f.2.render level).toList) ++
      ',' :: (renderFields level (f' :: fs)).toList := by
  simp [renderFields]

end

mutual

/-- **A value that is written at any level says itself.** -/
theorem says_render (level : Nat) : ∀ x : Json, Says (x.render level).toList x
  | .null => .null
  | .bool Bool.true => .true
  | .bool Bool.false => .false
  | .number n => says_number n
  | .string s => says_quote s
  | .array [] => by
    rw [render]
    exact .noItems isSpace_nil
  | .array (x :: xs) => by
    rw [toList_render_array]
    exact .items ((says_renderItems (level + 1) (x :: xs) (by simp)).before_space
      (isSpace_newline level))
  | .object [] => by
    rw [render]
    exact .noFields isSpace_nil
  | .object (f :: fs) => by
    rw [toList_render_object]
    exact .fields ((says_renderFields (level + 1) (f :: fs) (by simp)).before_space
      (isSpace_newline level))

theorem says_renderItems (level : Nat) :
    ∀ xs, xs ≠ [] → SaysItems (renderItems level xs).toList xs
  | [], h => absurd rfl h
  | [x], _ => by
    have h := (says_render level x).after_space (isSpace_newline level)
    rw [← String.toList_append] at h
    exact .last h
  | x :: y :: ys, _ => by
    rw [toList_renderItems]
    exact .cons ((says_render level x).after_space (isSpace_newline level))
      (says_renderItems level (y :: ys) (by simp))

theorem says_renderFields (level : Nat) :
    ∀ fs, fs ≠ [] → SaysFields (renderFields level fs).toList fs
  | [], h => absurd rfl h
  | [(name, x)], _ => by
    rw [toList_renderField]
    exact .last ((says_quote name).after_space (isSpace_newline level))
      ((says_render level x).after_space (by decide))
  | (name, x) :: f :: fs, _ => by
    rw [toList_renderFields]
    exact .cons ((says_quote name).after_space (isSpace_newline level))
      ((says_render level x).after_space (by decide))
      (says_renderFields level (f :: fs) (by simp))

end

/-- **A document says the value that it is written for**, with white space behind it. -/
theorem says_pretty {space : List Char} (hspace : IsSpace space) (x : Json) :
    Says (x.pretty.toList ++ space) x :=
  (says_render 0 x).before_space hspace

end ShaderReflect.Json
