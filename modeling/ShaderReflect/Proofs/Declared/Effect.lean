import ShaderReflect.Proofs.DistinctIds

/-!
# What instructions do to pointers

In a function body, an instruction may derive a pointer from another one, touch memory through
pointers, hand pointers to a function, or pair an image with a sampler. This is its *effect*. It can
be told from the opcode and the operands alone, and what is read from an instruction has the same
effect.

* `Statement.effect_of_read`: the effect of what is read.
* `Instruction.result?`: the result ID of an instruction.
* `Instruction.result?_of_outline`, `Instruction.result?_of_effect`: an entity is declared, and a
  pointer derived, under the result ID.

The specification (4.2) lists what counts as an access: loads, stores, copies, access chains,
atomics, texel pointers, queries of lengths, and arguments of calls. The roles of opcodes sort them
into the shapes of `AccessShape`; an effect is a shape with its operands filled in.
-/

namespace ShaderReflect

/-- What an instruction does to pointers. -/
inductive Effect
  | none
  /-- The pointer is read through, and the result is derived from it. -/
  | derives (result pointer : Ident)
  /-- Pointers are read or written through, or handed to a function. -/
  | touches (pointers : List Ident)
  /-- An image is paired with a sampler. -/
  | samples (image sampler : Ident)
deriving DecidableEq, Repr

namespace Effect

/-- The pointers that are read or written through or handed to a function. -/
def pointers : Effect → List Ident
  | .derives _ pointer => [pointer]
  | .touches pointers => pointers
  | .none | .samples _ _ => []

/-- The image and the sampler that are paired. -/
def pair? : Effect → Option (Ident × Ident)
  | .samples image sampler => some (image, sampler)
  | _ => Option.none

end Effect

/-- The effect of a declaration. -/
def Declaration.effect : Declaration → Effect
  | .derive result pointer => .derives result pointer
  | .touch pointers => .touches pointers
  | .call _ args => .touches args
  | .sampledImage image sampler => .samples image sampler
  | _ => .none

/-- The effect of a statement. -/
def Statement.effect : Statement → Effect
  | .declare d => d.effect
  | .ignored | .annotate _ => .none

/-- The effect of an access to memory. The pointer is the third operand if there is a result, whose
type and ID stand before it. -/
def AccessShape.effect (operands : List Word) : AccessShape → Effect
  | .derive => match operands with
    | _ :: result :: pointer :: _ => .derives result pointer
    | _ => .none
  | .read => match operands with
    | _ :: _ :: pointer :: _ => .touches [pointer]
    | _ => .none
  | .write => match operands with
    | pointer :: _ => .touches [pointer]
    | _ => .none
  | .copy => match operands with
    | target :: source :: _ => .touches [target, source]
    | _ => .none

/-- The effect of an instruction with a role. A call hands over all that follows the result type,
the result and the function. -/
def Role.effect (operands : List Word) : Role → Effect
  | .access shape => shape.effect operands
  | .functionCall => .touches (operands.drop 3)
  | .sampledImage => match operands with
    | _ :: _ :: image :: sampler :: _ => .samples image sampler
    | _ => .none
  | _ => .none

/-- The result ID of an instruction with a role. -/
def Role.result? (operands : List Word) : Role → Option Ident
  | .type .forwardPointer => none
  | .type _ => operands[0]?
  | .constant _ | .specConstant _ | .composite _ | .specOperation | .globalVar | .function
  | .functionCall | .access .derive | .access .read | .sampledImage => operands[1]?
  | _ => none

namespace Instruction

/-- The effect of an instruction. -/
def effect (i : Instruction) : Effect :=
  match Role.ofOpcode? i.opcode with
  | some role => role.effect i.operands
  | none => .none

/-- The result ID of an instruction, if it is understood and has one. -/
def result? (i : Instruction) : Option Ident :=
  (Role.ofOpcode? i.opcode).bind (Role.result? i.operands)

variable {i : Instruction} {inBody : Bool} {kind : Entity} {id result pointer : Ident}

theorem eq_some_of_ofResult {kind' : Entity} {id? : Option Ident}
    (h : Outline.ofResult kind' id? = .declares kind id) : id? = some id := by
  cases id? with
  | none => cases h
  | some id' =>
    cases h
    rfl

/-- An entity is declared under the result ID. -/
theorem result?_of_outline (h : i.outline inBody = .declares kind id) : i.result? = some id := by
  unfold outline at h
  unfold result?
  cases hrole : Role.ofOpcode? i.opcode with
  | none =>
    rw [hrole] at h
    cases h
  | some role =>
    rw [hrole] at h
    rw [Option.bind_some]
    cases role with
    | type form =>
      cases form with
      | forwardPointer => cases h
      | _ => exact eq_some_of_ofResult h
    | constant | specConstant | composite | specOperation | function => exact eq_some_of_ofResult h
    | globalVar =>
      cases inBody with
      | true => cases h
      | false => exact eq_some_of_ofResult h
    | _ => cases h

/-- Only one access derives a pointer, and it does so under its second operand. -/
theorem eq_derive_of_effect {shape : AccessShape} {ws : List Word}
    (h : shape.effect ws = .derives result pointer) : shape = .derive ∧ ws[1]? = some result := by
  cases shape with
  | derive =>
    simp only [AccessShape.effect] at h
    split at h
    · cases h
      exact ⟨rfl, rfl⟩
    · cases h
  | read | write | copy =>
    simp only [AccessShape.effect] at h
    split at h <;> cases h

/-- A pointer is derived under the result ID. -/
theorem result?_of_effect (h : i.effect = .derives result pointer) : i.result? = some result := by
  unfold effect at h
  unfold result?
  cases hrole : Role.ofOpcode? i.opcode with
  | none =>
    rw [hrole] at h
    cases h
  | some role =>
    rw [hrole] at h
    rw [Option.bind_some]
    cases role with
    | access shape =>
      obtain ⟨rfl, hresult⟩ := eq_derive_of_effect h
      exact hresult
    | sampledImage =>
      simp only [Role.effect] at h
      split at h <;> cases h
    | _ => cases h

end Instruction

/-! ## What is read -/

namespace Read

variable {β : Type} {ids : List Ident} {bound : Word} {ws left : List Word}

/-- IDs that are read are all the words. -/
theorem eq_of_idents (h : idents bound ws = (.ok ids, left)) : ids = ws := by
  unfold idents at h
  rw [bind_of_ok (rfl : rest ws = (.ok ws, []))] at h
  cases hcheck : ws.forM (checkIdent bound) with
  | ok =>
    simp only [hcheck] at h
    cases h
    rfl
  | error e =>
    simp only [hcheck] at h
    cases h

end Read

namespace Statement

open Read

variable {bound : Word} {inBody : Bool} {i : Instruction} {st : Statement} {d : Declaration}
  {ws : List Word}

/-- A read that goes on with a result reads its type first. -/
theorem readResult_bind {β : Type} (f : Ident → Read β) :
    readResult bound >>= f = ident bound >>= fun _ => ident bound >>= f := by
  funext ws
  rcases h : ident bound ws with ⟨x, left⟩
  cases x with
  | ok type =>
    have hresult : readResult bound ws = ident bound left := bind_of_ok h
    rw [bind_of_ok h]
    simp only [bind, hresult]
  | error e =>
    have hresult : readResult bound ws = (.error e, left) := bind_of_error h
    rw [bind_of_error h, bind_of_error hresult]

theorem effect_readType (form : TypeForm) :
    (readType bound form).Yields fun d => d.effect = .none := by
  unfold readType
  split
  · exact yields_bind fun _ => yields_bind fun _ => yields_pure rfl
  · exact yields_bind fun _ => yields_bind fun _ => yields_pure rfl

theorem effect_readConstant {isSpecialization : Bool} {form : ConstantForm}
    (h : (readConstant bound isSpecialization form).run ws = .ok d) : d.effect = .none := by
  obtain ⟨id, c, rfl, -⟩ := (yields_readConstant isSpecialization form).of_run h
  rfl

theorem effect_readComposite {isSpecialization : Bool} :
    (readComposite bound isSpecialization).Yields fun d => d.effect = .none :=
  yields_bind fun _ => yields_bind fun _ => yields_bind fun _ => yields_pure rfl

theorem effect_readSpecOperation : (readSpecOperation bound).Yields fun d => d.effect = .none :=
  yields_bind fun _ => yields_bind fun _ => yields_bind fun _ => yields_bind fun _ =>
    yields_pure rfl

theorem effect_readGlobalVar : (readGlobalVar bound).Yields fun d => d.effect = .none :=
  yields_bind fun _ => yields_bind fun _ => yields_bind fun _ => yields_pure rfl

theorem effect_readCall (h : (readCall bound).run ws = .ok d) :
    d.effect = Role.functionCall.effect ws := by
  unfold readCall at h
  rw [readResult_bind] at h
  obtain ⟨type, left, rfl, -, h⟩ := ident_bind_eq_ok_iff.mp h
  obtain ⟨result, left, rfl, -, h⟩ := ident_bind_eq_ok_iff.mp h
  obtain ⟨callee, left, rfl, -, h⟩ := ident_bind_eq_ok_iff.mp h
  rcases hids : idents bound left with ⟨x, rest⟩
  cases x with
  | error e =>
    rw [bind_of_error hids] at h
    cases h
  | ok ids =>
    rw [bind_of_ok hids] at h
    cases h
    exact congrArg Effect.touches (eq_of_idents hids)

theorem effect_readAccess {shape : AccessShape} (h : (readAccess bound shape).run ws = .ok d) :
    d.effect = shape.effect ws := by
  cases shape with
  | derive | read =>
    simp only [readAccess, readResult_bind] at h
    obtain ⟨type, left, rfl, -, h⟩ := ident_bind_eq_ok_iff.mp h
    obtain ⟨result, left, rfl, -, h⟩ := ident_bind_eq_ok_iff.mp h
    obtain ⟨pointer, left, rfl, -, h⟩ := ident_bind_eq_ok_iff.mp h
    cases h
    rfl
  | write =>
    obtain ⟨pointer, left, rfl, -, h⟩ := ident_bind_eq_ok_iff.mp h
    cases h
    rfl
  | copy =>
    obtain ⟨target, left, rfl, -, h⟩ := ident_bind_eq_ok_iff.mp h
    obtain ⟨source, left, rfl, -, h⟩ := ident_bind_eq_ok_iff.mp h
    cases h
    rfl

theorem effect_readSampledImage (h : (readSampledImage bound).run ws = .ok d) :
    d.effect = Role.sampledImage.effect ws := by
  unfold readSampledImage at h
  rw [readResult_bind] at h
  obtain ⟨type, left, rfl, -, h⟩ := ident_bind_eq_ok_iff.mp h
  obtain ⟨result, left, rfl, -, h⟩ := ident_bind_eq_ok_iff.mp h
  obtain ⟨image, left, rfl, -, h⟩ := ident_bind_eq_ok_iff.mp h
  obtain ⟨sampler, left, rfl, -, h⟩ := ident_bind_eq_ok_iff.mp h
  cases h
  rfl

/-- **What is read from an instruction has its effect.** -/
theorem effect_of_read (h : read bound inBody i = .ok st) : st.effect = i.effect := by
  unfold read at h
  unfold Instruction.effect
  cases hrole : Role.ofOpcode? i.opcode with
  | none =>
    rw [hrole] at h
    cases inBody <;> cases h
    rfl
  | some role =>
    rw [hrole] at h
    cases role with
    | ignored | functionEnd =>
      cases h
      rfl
    | unsupported => cases h
    | entryPoint | executionMode byIdent | name | memberName | decoration | memberDecoration =>
      obtain ⟨_, -, rfl⟩ := map_eq_ok_iff.mp h
      rfl
    | type form =>
      cases inBody with
      | true => cases h
      | false =>
        obtain ⟨d, hd, rfl⟩ := map_eq_ok_iff.mp h
        exact (effect_readType form).of_run hd
    | constant form | specConstant form =>
      obtain ⟨d, hd, rfl⟩ := map_eq_ok_iff.mp h
      exact effect_readConstant hd
    | composite isSpec =>
      obtain ⟨d, hd, rfl⟩ := map_eq_ok_iff.mp h
      exact effect_readComposite.of_run hd
    | specOperation =>
      obtain ⟨d, hd, rfl⟩ := map_eq_ok_iff.mp h
      exact effect_readSpecOperation.of_run hd
    | globalVar =>
      cases inBody with
      | true =>
        cases h
        rfl
      | false =>
        obtain ⟨d, hd, rfl⟩ := map_eq_ok_iff.mp h
        exact effect_readGlobalVar.of_run hd
    | function =>
      cases inBody with
      | true => cases h
      | false =>
        obtain ⟨id, -, rfl⟩ := map_eq_ok_iff.mp h
        rfl
    | functionCall =>
      obtain ⟨d, hd, rfl⟩ := map_eq_ok_iff.mp h
      exact effect_readCall hd
    | access shape =>
      obtain ⟨d, hd, rfl⟩ := map_eq_ok_iff.mp h
      exact effect_readAccess hd
    | sampledImage =>
      obtain ⟨d, hd, rfl⟩ := map_eq_ok_iff.mp h
      exact effect_readSampledImage hd

end Statement

end ShaderReflect
