import ShaderReflect.Proofs.Graph

/-!
# Outlines of instructions

The outline of an instruction says which entity it declares, and under which ID, or that it ends a
function. It can be told from the role of the opcode and from the place of the result ID among the
operands. What is read from an instruction has the same outline.

* `Statement.outline_of_read`: the outline of what is read.
* `Instruction.inFunction`: whether a function is open behind some instructions.
* `Declarations.adds_of_add`: what a declaration that is accepted does.
* `Draft.isSome_current_foldlM`: whether a function is open while instructions are collected.

Outlines are why statements about a graph can be put in terms of the instructions of the binary
alone: which of them declares an ID, and where, needs no statement to be read.
-/

namespace ShaderReflect

/-- The opcodes that open and that end a function. -/
def opFunction : Opcode := 54
@[inherit_doc opFunction]
def opFunctionEnd : Opcode := 56

/-- The kinds of entities that are declared under IDs. -/
inductive Entity
  | type
  | constant
  | globalVar
  | function
deriving DecidableEq, Repr

/-- What something does to the entities that are declared, and to the function that is open. -/
inductive Outline
  | declares (kind : Entity) (id : Ident)
  | endsFunction
  | neutral
deriving DecidableEq, Repr

namespace Outline

/-- The outline of an instruction that declares an entity under its result ID. -/
def ofResult (kind : Entity) : Option Ident → Outline
  | some id => .declares kind id
  | none => .neutral

/-- Whether a function is open afterwards, if it is said whether one is open before. -/
def scope (inBody : Bool) : Outline → Bool
  | .declares .function _ => true
  | .endsFunction => false
  | _ => inBody

/-- What declares anything but a function leaves it open whether a function is. -/
theorem scope_ofResult {kind : Entity} (h : kind ≠ .function) (inBody : Bool) (id : Option Ident) :
    (ofResult kind id).scope inBody = inBody := by
  cases id with
  | none => rfl
  | some id =>
    cases kind with
    | function => exact absurd rfl h
    | type | constant | globalVar => rfl

/-- The ID under which an entity of a kind is declared. -/
def id? (kind : Entity) : Outline → Option Ident
  | .declares kind' id => if kind' = kind then some id else none
  | _ => none

end Outline

/-- The outline of a declaration. -/
def Declaration.outline : Declaration → Outline
  | .type id _ => .declares .type id
  | .constant id _ => .declares .constant id
  | .globalVar id _ => .declares .globalVar id
  | .function id => .declares .function id
  | .functionEnd => .endsFunction
  | .forwardPointer _ | .call _ _ | .derive _ _ | .touch _ | .sampledImage _ _ => .neutral

/-- The outline of a statement. -/
def Statement.outline : Statement → Outline
  | .declare d => d.outline
  | .ignored | .annotate _ => .neutral

/-- The outline of an instruction with a role. The result ID is the first operand of a type, and the
second one of all else, which has a type before it. -/
def Role.outline (inBody : Bool) (operands : List Word) : Role → Outline
  | .type .forwardPointer => .neutral
  | .type _ => .ofResult .type operands[0]?
  | .constant _ | .specConstant _ | .composite _ | .specOperation =>
    .ofResult .constant operands[1]?
  | .globalVar => if inBody then .neutral else .ofResult .globalVar operands[1]?
  | .function => .ofResult .function operands[1]?
  | .functionEnd => .endsFunction
  | _ => .neutral

namespace Instruction

/-- The outline of an instruction. -/
def outline (inBody : Bool) (i : Instruction) : Outline :=
  match Role.ofOpcode? i.opcode with
  | some role => role.outline inBody i.operands
  | none => .neutral

/-- Whether a function is open after an instruction, if it is said whether one is open before. -/
def scope (inBody : Bool) (i : Instruction) : Bool :=
  if i.opcode = opFunction then true else if i.opcode = opFunctionEnd then false else inBody

/-- Whether a function is open behind some instructions: one is opened, and not ended since. -/
def inFunction (is : List Instruction) : Bool := is.foldl scope false

end Instruction

/-! ## What is read -/

namespace Statement

open Read

variable {bound : Word} {inBody : Bool} {i : Instruction} {st : Statement} {d : Declaration}
  {ws : List Word}

/-- A declaration whose second operand is its result ID. -/
theorem outline_of_run_result {kind : Entity} {rest : Ident → Ident → Read Declaration}
    (hrest : ∀ type id, (rest type id).Yields fun d => d.outline = .declares kind id)
    (h : (do rest (← ident bound) (← ident bound) : Read Declaration).run ws = .ok d) :
    d.outline = .ofResult kind ws[1]? := by
  obtain ⟨type, left, rfl, -, h⟩ := ident_bind_eq_ok_iff.mp h
  obtain ⟨id, left, rfl, -, h⟩ := ident_bind_eq_ok_iff.mp h
  exact (hrest type id).of_run h

theorem outline_readType {form : TypeForm} (h : (readType bound form).run ws = .ok d) :
    d.outline = (Role.type form).outline inBody ws := by
  cases form with
  | forwardPointer =>
    have hneutral : (readType bound .forwardPointer).Yields fun d => d.outline = .neutral :=
      yields_bind fun _ => yields_bind fun _ => yields_pure rfl
    exact hneutral.of_run h
  | _ =>
    obtain ⟨id, left, rfl, -, h⟩ := ident_bind_eq_ok_iff.mp h
    exact Yields.of_run (P := fun d => d.outline = .declares .type id)
      (yields_bind fun _ => yields_pure rfl) h

theorem outline_readConstant {isSpecialization : Bool} {form : ConstantForm}
    (h : (readConstant bound isSpecialization form).run ws = .ok d) :
    d.outline = .ofResult .constant ws[1]? := by
  refine outline_of_run_result (fun type id => yields_bind fun words => ?_) h
  split
  · exact yields_pure rfl
  · exact yields_fail _
  · exact yields_pure rfl
  · exact yields_pure rfl

theorem outline_readComposite {isSpecialization : Bool}
    (h : (readComposite bound isSpecialization).run ws = .ok d) :
    d.outline = .ofResult .constant ws[1]? :=
  outline_of_run_result (fun _ _ => yields_bind fun _ => yields_pure rfl) h

theorem outline_readSpecOperation (h : (readSpecOperation bound).run ws = .ok d) :
    d.outline = .ofResult .constant ws[1]? :=
  outline_of_run_result
    (fun _ _ => yields_bind fun _ => yields_bind fun _ => yields_pure rfl) h

theorem outline_readGlobalVar (h : (readGlobalVar bound).run ws = .ok d) :
    d.outline = .ofResult .globalVar ws[1]? :=
  outline_of_run_result (fun _ _ => yields_bind fun _ => yields_pure rfl) h

theorem outline_readCall : (readCall bound).Yields fun d => d.outline = .neutral :=
  yields_bind fun _ => yields_bind fun _ => yields_bind fun _ => yields_pure rfl

theorem outline_readAccess (shape : AccessShape) :
    (readAccess bound shape).Yields fun d => d.outline = .neutral := by
  cases shape with
  | derive => exact yields_bind fun _ => yields_bind fun _ => yields_pure rfl
  | read => exact yields_bind fun _ => yields_bind fun _ => yields_pure rfl
  | write => exact yields_bind fun _ => yields_pure rfl
  | copy => exact yields_bind fun _ => yields_bind fun _ => yields_pure rfl

theorem outline_readSampledImage :
    (readSampledImage bound).Yields fun d => d.outline = .neutral :=
  yields_bind fun _ => yields_bind fun _ => yields_bind fun _ => yields_pure rfl

theorem outline_readResult {id : Ident} (h : (readResult bound).run ws = .ok id) :
    Outline.declares .function id = .ofResult .function ws[1]? := by
  obtain ⟨type, left, rfl, -, h⟩ := ident_bind_eq_ok_iff.mp h
  rw [ident_eq_bind_pure] at h
  obtain ⟨id', left, rfl, -, h⟩ := ident_bind_eq_ok_iff.mp h
  cases h
  rfl

/-- **What is read from an instruction has its outline.** -/
theorem outline_of_read (h : read bound inBody i = .ok st) : st.outline = i.outline inBody := by
  unfold read at h
  unfold Instruction.outline
  cases hrole : Role.ofOpcode? i.opcode with
  | none =>
    rw [hrole] at h
    cases inBody <;> cases h
    rfl
  | some role =>
    rw [hrole] at h
    cases role with
    | ignored | functionEnd =>
      cases h
      rfl
    | unsupported => cases h
    | entryPoint | executionMode byIdent | name | memberName | decoration | memberDecoration =>
      obtain ⟨_, -, rfl⟩ := map_eq_ok_iff.mp h
      rfl
    | type form =>
      cases inBody with
      | true => cases h
      | false =>
        obtain ⟨d, hd, rfl⟩ := map_eq_ok_iff.mp h
        exact outline_readType hd
    | constant form | specConstant form =>
      obtain ⟨d, hd, rfl⟩ := map_eq_ok_iff.mp h
      exact outline_readConstant hd
    | composite isSpec =>
      obtain ⟨d, hd, rfl⟩ := map_eq_ok_iff.mp h
      exact outline_readComposite hd
    | specOperation =>
      obtain ⟨d, hd, rfl⟩ := map_eq_ok_iff.mp h
      exact outline_readSpecOperation hd
    | globalVar =>
      cases inBody with
      | true =>
        cases h
        rfl
      | false =>
        obtain ⟨d, hd, rfl⟩ := map_eq_ok_iff.mp h
        exact outline_readGlobalVar hd
    | function =>
      cases inBody with
      | true => cases h
      | false =>
        obtain ⟨id, hid, rfl⟩ := map_eq_ok_iff.mp h
        exact outline_readResult hid
    | functionCall =>
      obtain ⟨d, hd, rfl⟩ := map_eq_ok_iff.mp h
      exact outline_readCall.of_run hd
    | access shape =>
      obtain ⟨d, hd, rfl⟩ := map_eq_ok_iff.mp h
      exact (outline_readAccess shape).of_run hd
    | sampledImage =>
      obtain ⟨d, hd, rfl⟩ := map_eq_ok_iff.mp h
      exact outline_readSampledImage.of_run hd

theorem ofOpcode?_eq_function_iff {opcode : Opcode} :
    Role.ofOpcode? opcode = some .function ↔ opcode = opFunction := by
  constructor
  · intro h
    have hall : ∀ e ∈ Role.table, e.2 = .function → e.1 = 54 := by decide
    exact UInt32.toNat_inj.mp (hall _ (mem_table_of_ofOpcode? h) rfl)
  · rintro rfl
    rfl

theorem ofOpcode?_eq_functionEnd_iff {opcode : Opcode} :
    Role.ofOpcode? opcode = some .functionEnd ↔ opcode = opFunctionEnd := by
  constructor
  · intro h
    have hall : ∀ e ∈ Role.table, e.2 = .functionEnd → e.1 = 56 := by decide
    exact UInt32.toNat_inj.mp (hall _ (mem_table_of_ofOpcode? h) rfl)
  · rintro rfl
    rfl

/-- Whether a function is open behind an instruction can be told from what is read from it. -/
theorem scope_outline_of_read (h : read bound inBody i = .ok st) :
    st.outline.scope inBody = i.scope inBody := by
  unfold Instruction.scope
  by_cases hfunction : i.opcode = opFunction
  · rw [if_pos hfunction]
    unfold read at h
    rw [ofOpcode?_eq_function_iff.mpr hfunction] at h
    cases inBody with
    | true => cases h
    | false =>
      obtain ⟨id, -, rfl⟩ := map_eq_ok_iff.mp h
      rfl
  · rw [if_neg hfunction]
    by_cases hend : i.opcode = opFunctionEnd
    · rw [if_pos hend]
      unfold read at h
      rw [ofOpcode?_eq_functionEnd_iff.mpr hend] at h
      cases h
      rfl
    · rw [if_neg hend, outline_of_read h]
      unfold Instruction.outline
      cases hrole : Role.ofOpcode? i.opcode with
      | none => rfl
      | some role =>
        cases role with
        | function => exact absurd (ofOpcode?_eq_function_iff.mp hrole) hfunction
        | functionEnd => exact absurd (ofOpcode?_eq_functionEnd_iff.mp hrole) hend
        | type form =>
          cases form with
          | forwardPointer => rfl
          | _ => exact Outline.scope_ofResult (by decide) _ _
        | constant form | specConstant form | composite isSpec | specOperation =>
          exact Outline.scope_ofResult (by decide) _ _
        | globalVar =>
          cases inBody with
          | true => rfl
          | false => exact Outline.scope_ofResult (by decide) _ _
        | _ => rfl

end Statement

/-! ## Declarations -/

namespace Declarations

variable {ds ds' : Declarations} {d : Declaration} {kind : Entity}

/-- Changing the open body changes nothing else. -/
theorem inBody_eq_ok {f : FunctionBody → FunctionBody} (hadd : ds.inBody f = .ok ds') :
    ∃ id body, ds.current = some (id, body) ∧ ds' = { ds with current := some (id, f body) } := by
  unfold inBody at hadd
  split at hadd
  · rename_i id body hcurrent
    cases hadd
    exact ⟨id, body, hcurrent, rfl⟩
  · cases hadd

/-- What a declaration that is accepted does to the declared entities and to the open function. -/
inductive Adds (ds : Declarations) : Declaration → Declarations → Prop
  | type {id : Ident} {decl : TypeDecl} {types : Table Ident TypeDecl}
    (h : ds.types.insertNew? id decl = some types) : Adds ds (.type id decl) { ds with types }
  | constant {id : Ident} {c : Constant} {constants : Table Ident Constant}
    (hfree : ds.globals.contains id = false)
    (h : ds.constants.insertNew? id c = some constants) :
    Adds ds (.constant id c) { ds with constants }
  | globalVar {id : Ident} {v : Variable} {globals : Table Ident Variable}
    (hfree : ds.constants.contains id = false) (h : ds.globals.insertNew? id v = some globals) :
    Adds ds (.globalVar id v) { ds with globals }
  | function (id : Ident) : Adds ds (.function id) { ds with current := some (id, {}) }
  | functionEnd {id : Ident} {body : FunctionBody} {functions : Table Ident FunctionBody}
    (hcurrent : ds.current = some (id, body))
    (h : ds.functions.insertNew? id body = some functions) :
    Adds ds .functionEnd { ds with functions, current := none }
  | neutral {d : Declaration} {ds' : Declarations} (hd : d.outline = .neutral)
    (htypes : ds'.types = ds.types) (hconstants : ds'.constants = ds.constants)
    (hglobals : ds'.globals = ds.globals) (hfunctions : ds'.functions = ds.functions)
    (hcurrent : ds'.current.map Prod.fst = ds.current.map Prod.fst) : Adds ds d ds'

/-- What is done in the open body is neutral. -/
theorem adds_of_inBody {f : FunctionBody → FunctionBody} (hd : d.outline = .neutral)
    (h : ds.inBody f = .ok ds') : ds.Adds d ds' := by
  obtain ⟨id, body, hcurrent, rfl⟩ := inBody_eq_ok h
  exact .neutral hd rfl rfl rfl rfl (by rw [hcurrent]; rfl)

/-- **One more declaration.** -/
theorem adds_of_add (h : ds.add d = .ok ds') : ds.Adds d ds' := by
  cases d with
  | forwardPointer id =>
    cases h
    exact .neutral rfl rfl rfl rfl rfl rfl
  | type id decl =>
    simp only [add, addType] at h
    split at h <;> cases h
    exact .type ‹_›
  | constant id c =>
    simp only [add, addConstant] at h
    split at h
    · cases h
    · split at h <;> cases h
      exact .constant (by simpa using ‹¬ds.globals.contains id = true›) ‹_›
  | globalVar id v =>
    simp only [add, addVariable] at h
    split at h
    · cases h
    · split at h <;> cases h
      exact .globalVar (by simpa using ‹¬ds.constants.contains id = true›) ‹_›
  | function id =>
    cases h
    exact .function id
  | functionEnd =>
    simp only [add, endFunction] at h
    split at h
    · cases h
    · rename_i id body hcurrent
      split at h <;> cases h
      exact .functionEnd hcurrent ‹_›
  | call callee args | touch pointers | sampledImage image sampler => exact adds_of_inBody rfl h
  | derive result pointer =>
    simp only [add] at h
    split at h
    · exact adds_of_inBody rfl h
    · obtain ⟨id, body, hcurrent, rfl⟩ := inBody_eq_ok h
      exact .neutral rfl rfl rfl rfl rfl (by rw [show ds.current = _ from hcurrent]; rfl)

/-- Whether a function is open after a declaration. -/
theorem isSome_current_add (h : ds.add d = .ok ds') :
    ds'.current.isSome = d.outline.scope ds.current.isSome := by
  cases adds_of_add h with
  | type | constant | globalVar | function | functionEnd => rfl
  | neutral hd _ _ _ _ hcurrent =>
    rw [hd, ← Option.isSome_map, hcurrent, Option.isSome_map]
    rfl

end Declarations

/-! ## Instructions -/

namespace Draft

variable {bound : Word} {d t : Draft} {i : Instruction} {is : List Instruction}

/-- Whether a function is open after an instruction. -/
theorem isSome_current_addInstruction (h : d.addInstruction bound i = .ok t) :
    t.declarations.current.isSome = i.scope d.declarations.current.isSome := by
  cases collects_of_addInstruction h with
  | ignored hread | annotate hread => exact Statement.scope_outline_of_read hread
  | declare hread hadd =>
    rw [← Statement.scope_outline_of_read hread]
    exact Declarations.isSome_current_add hadd

/-- **Whether a function is open behind some instructions** that have been collected. -/
theorem isSome_current_foldlM (h : is.foldlM (addInstruction bound) d = .ok t) :
    t.declarations.current.isSome = is.foldl Instruction.scope d.declarations.current.isSome := by
  induction is generalizing d with
  | nil =>
    cases h
    rfl
  | cons i is ih =>
    rw [List.foldlM_cons, bind_eq_ok_iff] at h
    obtain ⟨d', hd', h⟩ := h
    rw [ih h, isSome_current_addInstruction hd', List.foldl_cons]

end Draft

end ShaderReflect
