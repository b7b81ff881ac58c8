import ShaderReflect.Proofs.Graph
import ShaderReflect.Proofs.Value.Literal

/-!
# Binaries with other defaults

The default of a constant that can be overridden stands in the instruction that declares it: in the
opcode of a truth value, in the operands of a number. `Defaults.binary` writes other defaults into a
binary, and the binary then declares the same as before, but with these defaults.

* `Defaults.read_instruction`: what an instruction with another default says.
* `Draft.foldlM_addInstruction_defaults`: so it is for all instructions.
* `Graph.ofWords_defaults`: the graph of a binary with other defaults.

Specification, 4.3 (the default of a specialization constant). Whether a number has a default in one
word or in two is a matter of its bytes; words beyond its width do not count. A declaration that is
not an overridable constant is left alone, whatever is asked for its ID.
-/

namespace ShaderReflect

open Instruction

/-! ## Tables -/

namespace Table

variable {κ α β : Type} {t : Table κ α} {f : κ → α → β}

theorem keys_mapWithKey (t : Table κ α) (f : κ → α → β) : (t.mapWithKey f).keys = t.keys :=
  List.map_map

variable [DecidableEq κ]

theorem get?_mapWithKey (t : Table κ α) (f : κ → α → β) (k : κ) :
    (t.mapWithKey f).get? k = (t.get? k).map (f k) := by
  unfold get? mapWithKey
  simp only
  induction t.entries with
  | nil => rfl
  | cons e es ih =>
    obtain ⟨k', a⟩ := e
    by_cases hk : k = k'
    · subst hk
      simp
    · have hne : (k == k') = false := by simpa using hk
      simp only [List.map_cons, List.lookup_cons, hne, ih]

theorem contains_mapWithKey (t : Table κ α) (f : κ → α → β) (k : κ) :
    (t.mapWithKey f).contains k = t.contains k := by
  unfold contains
  rw [get?_mapWithKey, Option.isSome_map]

theorem insertNew?_mapWithKey (t : Table κ α) (f : κ → α → β) (k : κ) (a : α) :
    (t.mapWithKey f).insertNew? k (f k a) = (t.insertNew? k a).map (·.mapWithKey f) := by
  unfold insertNew?
  by_cases h : t.get? k = none
  · have h' : (t.mapWithKey f).get? k = none := by rw [get?_mapWithKey, h, Option.map_none]
    rw [dif_pos h, dif_pos h', Option.map_some]
    simp only [mapWithKey, List.map_append, List.map_cons, List.map_nil]
  · have h' : (t.mapWithKey f).get? k ≠ none := by
      rwa [get?_mapWithKey, ne_eq, Option.map_eq_none_iff]
    rw [dif_neg h, dif_neg h', Option.map_none]

end Table

/-! ## Defaults -/

/-- Values that constants are to have by default, each given by its bytes. -/
structure Defaults where
  bytes? : Ident → Option (List UInt8)
  /-- What the words of a number are filled with beyond its bytes. -/
  fill : Ident → UInt8

namespace Defaults

variable {ds : Defaults} {bound : Word} {inBody : Bool} {i : Instruction} {st : Statement}

/-- A constant with the default that it is to have, if it can be overridden. -/
def constant (ds : Defaults) (id : Ident) (c : Constant) : Constant :=
  match ds.bytes? id, c.kind, c.isSpecialization with
  | some bytes, .bool _, true => { c with kind := .bool (Scalar.numberOfBytes bytes ≠ 0) }
  | some bytes, .scalar _ _, true => { c with
      kind := .scalar (Scalar.literalLow (ds.fill id) bytes)
        (Scalar.literalHigh (ds.fill id) bytes) }
  | _, _, _ => c

/-- The opcode of a constant that is a truth value by default. -/
def opSpecConstantBool (value : Bool) : Opcode :=
  if value then opSpecConstantTrue else opSpecConstantFalse

/-- An instruction with another default, if it declares a constant that is to have one. -/
def instruction (ds : Defaults) (i : Instruction) : Instruction :=
  match i.operands with
  | type :: id :: _ =>
    match ds.bytes? id with
    | some bytes =>
      if i.opcode = opSpecConstantTrue ∨ i.opcode = opSpecConstantFalse then
        { i with opcode := opSpecConstantBool (Scalar.numberOfBytes bytes ≠ 0) }
      else if i.opcode = opSpecConstant then
        { i with operands :=
            type :: id :: Scalar.literalLow (ds.fill id) bytes ::
              Scalar.literalHigh (ds.fill id) bytes }
      else i
    | none => i
  | _ => i

/-- A statement with another default, if it declares a constant that is to have one. -/
def statement (ds : Defaults) : Statement → Statement
  | .declare (.constant id c) => .declare (.constant id (ds.constant id c))
  | st => st

/-- A constant keeps its default or, if it can be overridden, gets another one of its kind. -/
theorem constant_cases (ds : Defaults) (id : Ident) (c : Constant) : ds.constant id c = c ∨
    (∃ bytes value, ds.bytes? id = some bytes ∧ c.kind = .bool value ∧ c.isSpecialization = true ∧
      ds.constant id c = { c with kind := .bool (Scalar.numberOfBytes bytes ≠ 0) }) ∨
    ∃ bytes low high, ds.bytes? id = some bytes ∧ c.kind = .scalar low high ∧
      c.isSpecialization = true ∧ ds.constant id c = { c with
        kind := .scalar (Scalar.literalLow (ds.fill id) bytes)
          (Scalar.literalHigh (ds.fill id) bytes) } := by
  unfold constant
  split
  · rename_i bytes value hbytes hk hs
    exact .inr (.inl ⟨bytes, value, hbytes, hk, hs, rfl⟩)
  · rename_i bytes low high hbytes hk hs
    exact .inr (.inr ⟨bytes, low, high, hbytes, hk, hs, rfl⟩)
  · exact .inl rfl

theorem type_constant (ds : Defaults) (id : Ident) (c : Constant) :
    (ds.constant id c).type = c.type := by
  rcases ds.constant_cases id c with h | ⟨_, _, -, -, -, h⟩ | ⟨_, _, _, -, -, -, h⟩ <;> rw [h]

theorem constant_of_not_overridable {id : Ident} {c : Constant}
    (h : Specialization.isOverridable c = false) : ds.constant id c = c := by
  unfold Specialization.isOverridable at h
  rcases ds.constant_cases id c with hc | ⟨_, _, -, hk, hs, -⟩ | ⟨_, _, _, -, hk, hs, -⟩
  · exact hc
  · rw [hk, hs] at h
    cases h
  · rw [hk, hs] at h
    cases h

theorem statement_of_isPlain (h : st.isPlain = true) : ds.statement st = st := by
  unfold statement
  split
  · rename_i id c
    rw [constant_of_not_overridable (by simpa [Statement.isPlain] using h)]
  · rfl

theorem encodable_instruction (h : i.Encodable) : (ds.instruction i).Encodable := by
  unfold instruction
  split
  · split
    · split
      · refine ⟨?_, h.2⟩
        show (opSpecConstantBool _).toNat < 0x10000
        unfold opSpecConstantBool
        split <;> decide
      · split
        · refine ⟨h.1, ?_⟩
          unfold Scalar.literalHigh
          split <;> simp [wordCount]
        · exact h
    · exact h
  · exact h

/-! ## Instructions -/

/-- What a constant is made of, as its words say. -/
def kind? : ConstantForm → List Word → Option ConstantKind
  | .bool value, _ => some (.bool value)
  | .scalar, low :: high => some (.scalar low high)
  | .scalar, [] => none
  | .valueless, _ => some .valueless

/-- The type, the ID and the words of a constant are its operands. -/
theorem run_readConstant_eq_ok_iff {isSpecialization : Bool} {form : ConstantForm}
    {ws : List Word} {d : Declaration} :
    (Statement.readConstant bound isSpecialization form).run ws = .ok d ↔
    ∃ type id words kind, ws = type :: id :: words ∧ Read.checkIdent bound type = .ok () ∧
      Read.checkIdent bound id = .ok () ∧ kind? form words = some kind ∧
      d = .constant id { type, kind, isSpecialization } := by
  unfold Statement.readConstant Read.run
  simp only [Read.ident_bind_eq_ok_iff]
  constructor
  · rintro ⟨type, _, rfl, htype, id, words, rfl, hid, h⟩
    refine ⟨type, id, words, ?_⟩
    cases form with
    | bool value =>
      cases h
      exact ⟨_, rfl, htype, hid, rfl, rfl⟩
    | valueless =>
      cases h
      exact ⟨_, rfl, htype, hid, rfl, rfl⟩
    | scalar =>
      cases words with
      | nil => cases h
      | cons low high =>
        cases h
        exact ⟨_, rfl, htype, hid, rfl, rfl⟩
  · rintro ⟨type, id, words, kind, rfl, htype, hid, hkind, rfl⟩
    refine ⟨type, _, rfl, htype, id, words, rfl, hid, ?_⟩
    cases form with
    | bool value =>
      cases hkind
      rfl
    | valueless =>
      cases hkind
      rfl
    | scalar =>
      cases words with
      | nil => cases hkind
      | cons low high =>
        cases hkind
        rfl

/-- What an instruction says that declares a constant that can be overridden. -/
theorem read_specConstant_iff {form : ConstantForm}
    (hrole : Role.ofOpcode? i.opcode = some (.specConstant form)) :
    Statement.read bound inBody i = .ok st ↔ ∃ type id words kind,
      i.operands = type :: id :: words ∧ Read.checkIdent bound type = .ok () ∧
      Read.checkIdent bound id = .ok () ∧ kind? form words = some kind ∧
      st = .declare (.constant id { type, kind, isSpecialization := true }) := by
  have hread : Statement.read bound inBody i =
      .declare <$> (Statement.readConstant bound true form).run i.operands := by
    unfold Statement.read
    rw [hrole]
    rfl
  simp only [hread, map_eq_ok_iff, run_readConstant_eq_ok_iff]
  constructor
  · rintro ⟨_, ⟨type, id, words, kind, hws, htype, hid, hkind, rfl⟩, rfl⟩
    exact ⟨type, id, words, kind, hws, htype, hid, hkind, rfl⟩
  · rintro ⟨type, id, words, kind, hws, htype, hid, hkind, rfl⟩
    exact ⟨_, ⟨type, id, words, kind, hws, htype, hid, hkind, rfl⟩, rfl⟩

theorem ofOpcode?_opSpecConstantBool (value : Bool) :
    Role.ofOpcode? (opSpecConstantBool value) = some (.specConstant (.bool value)) := by
  cases value <;> rfl

theorem instruction_of_not_specConstant
    (h : ∀ form, Role.ofOpcode? i.opcode ≠ some (.specConstant form)) : ds.instruction i = i := by
  have htrue : i.opcode ≠ opSpecConstantTrue := fun he => h (.bool true) (by rw [he]; rfl)
  have hfalse : i.opcode ≠ opSpecConstantFalse := fun he => h (.bool false) (by rw [he]; rfl)
  have hscalar : i.opcode ≠ opSpecConstant := fun he => h .scalar (by rw [he]; rfl)
  unfold instruction
  split
  · split
    · rw [if_neg (by simp [htrue, hfalse]), if_neg hscalar]
    · rfl
  · rfl

theorem statement_of_not_specConstant
    (h : ∀ form, Role.ofOpcode? i.opcode ≠ some (.specConstant form))
    (hread : Statement.read bound inBody i = .ok st) : ds.statement st = st := by
  unfold Statement.read at hread
  split at hread
  · rename_i role hrole
    by_cases hentry : role = .entryPoint
    · subst hentry
      obtain ⟨a, -, rfl⟩ := map_eq_ok_iff.mp hread
      rfl
    · refine statement_of_isPlain (Statement.isPlain_of_ofRole hentry (fun form hf => ?_) hread)
      exact h form (by rw [hrole, hf])
  · cases inBody with
    | true =>
      cases hread
      rfl
    | false => cases hread

section

variable {type id : Ident} {words : List Word} {bytes : List UInt8}

theorem read_instruction_bool
    (hop : i.opcode = opSpecConstantTrue ∨ i.opcode = opSpecConstantFalse)
    (hws : i.operands = type :: id :: words) (htype : Read.checkIdent bound type = .ok ())
    (hid : Read.checkIdent bound id = .ok ()) (hbytes : ds.bytes? id = some bytes) (value : Bool) :
    Statement.read bound inBody (ds.instruction i) =
      .ok (ds.statement (.declare (.constant id ⟨type, .bool value, true⟩))) := by
  have hi : ds.instruction i =
      ⟨opSpecConstantBool (Scalar.numberOfBytes bytes ≠ 0), i.operands⟩ := by
    simp only [instruction, hws, hbytes, if_pos hop]
  have hnew : Role.ofOpcode? (ds.instruction i).opcode =
      some (.specConstant (.bool (Scalar.numberOfBytes bytes ≠ 0))) := by
    rw [hi]
    exact ofOpcode?_opSpecConstantBool _
  refine (read_specConstant_iff hnew).mpr ⟨type, id, words, _, ?_, htype, hid, rfl, ?_⟩
  · rw [hi, hws]
  · simp only [statement, constant, hbytes]

theorem read_instruction_scalar (hop : i.opcode = opSpecConstant)
    (hws : i.operands = type :: id :: words) (htype : Read.checkIdent bound type = .ok ())
    (hid : Read.checkIdent bound id = .ok ()) (hbytes : ds.bytes? id = some bytes) (low : Word)
    (high : List Word) : Statement.read bound inBody (ds.instruction i) =
      .ok (ds.statement (.declare (.constant id ⟨type, .scalar low high, true⟩))) := by
  have hi : ds.instruction i = ⟨i.opcode, type :: id ::
      Scalar.literalLow (ds.fill id) bytes :: Scalar.literalHigh (ds.fill id) bytes⟩ := by
    have hne : ¬ (i.opcode = opSpecConstantTrue ∨ i.opcode = opSpecConstantFalse) := by
      rw [hop]
      decide
    simp only [instruction, hws, hbytes, if_neg hne, if_pos hop]
  have hnew : Role.ofOpcode? (ds.instruction i).opcode = some (.specConstant .scalar) := by
    rw [hi, hop]
    rfl
  refine (read_specConstant_iff hnew).mpr ⟨type, id, _, _, by rw [hi], htype, hid, rfl, ?_⟩
  simp only [statement, constant, hbytes]

end

/-- **What an instruction with another default says.** -/
theorem read_instruction (h : Statement.read bound inBody i = .ok st) :
    Statement.read bound inBody (ds.instruction i) = .ok (ds.statement st) := by
  by_cases hspec : ∃ form, Role.ofOpcode? i.opcode = some (.specConstant form)
  · obtain ⟨form, hrole⟩ := hspec
    obtain ⟨type, id, words, kind, hws, htype, hid, hkind, rfl⟩ :=
      (read_specConstant_iff hrole).mp h
    cases hbytes : ds.bytes? id with
    | none =>
      have hi : ds.instruction i = i := by simp only [instruction, hws, hbytes]
      rw [hi, h]
      simp only [statement, constant, hbytes]
    | some bytes =>
      rcases Statement.opcode_of_specConstant hrole with ⟨rfl, hop⟩ | ⟨rfl, hop⟩ | ⟨rfl, hop⟩
      · cases hkind
        exact read_instruction_bool (.inl hop) hws htype hid hbytes true
      · cases hkind
        exact read_instruction_bool (.inr hop) hws htype hid hbytes false
      · cases words with
        | nil => cases hkind
        | cons low high =>
          cases hkind
          exact read_instruction_scalar hop hws htype hid hbytes low high
  · have hne : ∀ form, Role.ofOpcode? i.opcode ≠ some (.specConstant form) := fun form hf =>
      hspec ⟨form, hf⟩
    rw [instruction_of_not_specConstant hne, statement_of_not_specConstant hne h, h]

end Defaults

/-! ## Drafts -/

variable {ds : Defaults}

/-- Declarations with other defaults. -/
def Declarations.withDefaults (d : Declarations) (ds : Defaults) : Declarations :=
  { d with constants := d.constants.mapWithKey ds.constant }

theorem Declarations.inBody_withDefaults (d : Declarations) (f : FunctionBody → FunctionBody) :
    (d.withDefaults ds).inBody f = (·.withDefaults ds) <$> d.inBody f := by
  simp only [inBody, withDefaults]
  cases d.current <;> rfl

/-- What is declared besides constants does not depend on their defaults. -/
theorem Declarations.add_withDefaults (d : Declarations) (c : Declaration)
    (hc : ∀ id k, c ≠ .constant id k) :
    (d.withDefaults ds).add c = (·.withDefaults ds) <$> d.add c := by
  cases c with
  | constant id k => exact absurd rfl (hc id k)
  | forwardPointer id => rfl
  | type id decl =>
    simp only [add, addType, withDefaults]
    cases d.types.insertNew? id decl <;> rfl
  | globalVar id decl =>
    simp only [add, addVariable, withDefaults, Table.contains_mapWithKey]
    split
    · rfl
    · cases d.globals.insertNew? id decl <;> rfl
  | function id => rfl
  | functionEnd =>
    simp only [add, endFunction, withDefaults]
    cases d.current with
    | none => rfl
    | some function =>
      simp only
      cases d.functions.insertNew? function.1 function.2 <;> rfl
  | call callee args => exact d.inBody_withDefaults _
  | derive result pointer =>
    have hv : (d.withDefaults ds).variableOf? pointer = d.variableOf? pointer := rfl
    simp only [add, hv]
    cases d.variableOf? pointer with
    | none => exact d.inBody_withDefaults _
    | some v => exact inBody_withDefaults { d with derived := (result, v) :: d.derived } _
  | touch pointers => exact d.inBody_withDefaults _
  | sampledImage image sampler => exact d.inBody_withDefaults _

namespace Draft

/-- A draft with other defaults. -/
def withDefaults (d : Draft) (ds : Defaults) : Draft :=
  { d with declarations := d.declarations.withDefaults ds }

/-- Statements with other defaults add the same, but with these defaults. -/
theorem addStatement_withDefaults (d : Draft) (st : Statement) :
    (d.withDefaults ds).addStatement (ds.statement st) =
      (·.withDefaults ds) <$> d.addStatement st := by
  cases st with
  | ignored => rfl
  | annotate a => rfl
  | declare c =>
    have hadd : ∀ c', (d.declarations.withDefaults ds).add c' =
        (·.withDefaults ds) <$> d.declarations.add c →
        (d.withDefaults ds).addStatement (.declare c') =
          (·.withDefaults ds) <$> d.addStatement (.declare c) := by
      intro c' h
      show (do return { d.withDefaults ds with
        declarations := ← (d.declarations.withDefaults ds).add c' }) = _
      rw [h, bind_map_left, addStatement, map_bind]
      rfl
    cases c with
    | constant id k =>
      refine hadd _ ?_
      simp only [Declarations.add, Declarations.addConstant, Declarations.withDefaults,
        Table.insertNew?_mapWithKey]
      split
      · rfl
      · cases d.declarations.constants.insertNew? id k <;> rfl
    | _ => exact hadd _ (d.declarations.add_withDefaults _ fun _ _ h => by cases h)

/-- **Instructions with other defaults** declare the same, but with these defaults. -/
theorem foldlM_addInstruction_defaults {bound : Word} {is : List Instruction} {d t : Draft}
    (h : is.foldlM (addInstruction bound) d = .ok t) :
    (is.map ds.instruction).foldlM (addInstruction bound) (d.withDefaults ds) =
      .ok (t.withDefaults ds) := by
  induction is generalizing d with
  | nil =>
    cases h
    rfl
  | cons i is ih =>
    rw [List.foldlM_cons] at h
    obtain ⟨d', hd', h⟩ := bind_eq_ok_iff.mp h
    obtain ⟨st, hst, hd'⟩ := bind_eq_ok_iff.mp hd'
    have hread : Statement.read bound (d.withDefaults ds).declarations.current.isSome
        (ds.instruction i) = .ok (ds.statement st) := Defaults.read_instruction hst
    rw [List.map_cons, List.foldlM_cons, addInstruction, hread, ok_bind, addStatement_withDefaults,
      hd', map_ok, ok_bind]
    exact ih h

end Draft

/-! ## Graphs -/

namespace Graph

variable {g : Graph} {words : List Word}

/-- A graph with other defaults. -/
def withDefaults (g : Graph) (ds : Defaults) : Graph :=
  { g with constants := g.constants.mapWithKey ds.constant }

theorem checkType_withDefaults (g : Graph) (id : Ident) :
    (g.withDefaults ds).checkType id = g.checkType id := by
  have hc : ∀ length, (g.withDefaults ds).constants.contains length =
      g.constants.contains length := Table.contains_mapWithKey _ _
  have ht : (g.withDefaults ds).type = g.type := rfl
  unfold checkType
  simp only [hc, ht]

/-- A default refers to nothing. -/
theorem checkConstant_withDefaults (g : Graph) (id : Ident) :
    (g.withDefaults ds).checkConstant id = g.checkConstant id := by
  have hc : ∀ x, (g.withDefaults ds).constants.contains x = g.constants.contains x :=
    Table.contains_mapWithKey _ _
  have hget : (g.withDefaults ds).constants.get? id =
      (g.constants.get? id).map (ds.constant id) := Table.get?_mapWithKey _ _ _
  have ht : (g.withDefaults ds).type = g.type := rfl
  have hh : (g.withDefaults ds).header = g.header := rfl
  unfold checkConstant Graph.constant
  simp only [hget, hc, ht, hh]
  cases g.constants.get? id with
  | none => rfl
  | some k =>
    simp only [Option.map_some, ok_bind, Defaults.type_constant]
    rcases ds.constant_cases id k with h | ⟨_, _, -, hk, -, h⟩ | ⟨_, _, _, -, hk, -, h⟩
    · rw [h]
    · rw [h, hk]
    · rw [h, hk]

theorem check_withDefaults (h : g.check = .ok ()) : (g.withDefaults ds).check = .ok () := by
  obtain ⟨h₁, h₂, h₃, h₄, h₅, h₆⟩ := check_eq_ok_iff.mp h
  refine check_eq_ok_iff.mpr ⟨fun id hid => ?_, h₂, fun id hid => ?_, h₄, h₅, h₆⟩
  · rw [checkType_withDefaults]
    exact h₁ id hid
  · rw [checkConstant_withDefaults]
    exact h₃ id (by rwa [withDefaults, Table.keys_mapWithKey] at hid)

end Graph

/-- A binary with other defaults. -/
def Defaults.binary (ds : Defaults) (words : List Word) : List Word :=
  rewriteBinary (List.map ds.instruction) words

/-- **The graph of a binary with other defaults** is that of the binary, but with these
defaults. -/
theorem Graph.ofWords_defaults {g : Graph} {words : List Word} (h : ofWords words = .ok g) :
    ofWords (ds.binary words) = .ok (g.withDefaults ds) := by
  obtain ⟨header, body, d, order, hread, hd, hcheck, horder, rfl⟩ := ofWords_eq_ok_iff.mp h
  obtain ⟨htail, hfold, hcurrent⟩ := Draft.ofStream_eq_ok_iff.mp hd
  have hcut : cut (rewrite (List.map ds.instruction) body) =
      ((cut body).1.map ds.instruction, (cut body).2) := cut_rewrite fun i hi => by
    obtain ⟨j, hj, rfl⟩ := List.mem_map.mp hi
    exact Defaults.encodable_instruction (encodable_of_mem_cut body j hj)
  refine ofWords_eq_ok_iff.mpr ⟨header, rewrite (List.map ds.instruction) body, d.withDefaults ds,
    order, ?_, ?_, check_withDefaults hcheck, horder, rfl⟩
  · rw [Defaults.binary, read_rewriteBinary, hread, map_ok]
  · rw [Draft.ofStream_eq_ok_iff, hcut]
    exact ⟨htail, Draft.foldlM_addInstruction_defaults hfold, hcurrent⟩

end ShaderReflect
