import ShaderReflect.Declared.Statement
import ShaderReflect.Proofs.Outcome
import ShaderReflect.Specialization

/-!
# What instructions can say

Only the instruction for it declares an entry point, and only three instructions declare constants
that can be overridden. All other statements are *plain*.

* `Read.Yields`: what a read can yield, whatever the operands are.
* `Statement.isPlain_of_ofRole`: what other instructions say is plain.

Both facts are about `Role.table`, and are proved by its cases once, so that what is proved about
overrides and entry points does not go through all roles again.
-/

namespace ShaderReflect

/-- The opcode of entry points. -/
def opEntryPoint : Opcode := 15

/-- The opcodes of constants that can be overridden: the two truth values, and numbers. -/
def opSpecConstantTrue : Opcode := 48
@[inherit_doc opSpecConstantTrue]
def opSpecConstantFalse : Opcode := 49
@[inherit_doc opSpecConstantTrue]
def opSpecConstant : Opcode := 50

/-! ## Reading -/

namespace Read

variable {α β : Type} {P : α → Prop} {Q : β → Prop} {r : Read α} {f : α → Read β}
  {ws left : List Word} {bound w : Word}

theorem bind_of_ok {a : α} (h : r ws = (.ok a, left)) : (r >>= f) ws = f a left := by
  simp only [bind, h]

theorem bind_of_error {e : Fault} (h : r ws = (.error e, left)) :
    (r >>= f) ws = (.error e, left) := by
  simp only [bind, h]

/-- A word is gone once it is read, also if it is refused as an ID. -/
theorem ident_cons (bound w : Word) (ws : List Word) :
    ident bound (w :: ws) = ((checkIdent bound w).map fun _ => w, ws) := by
  rw [ident, bind_of_ok (rfl : word (w :: ws) = (.ok w, ws))]
  cases checkIdent bound w <;> rfl

/-- An ID that is read is the first word, if that is one. -/
theorem ident_bind_eq_ok_iff {f : Ident → Read β} {b : β} : ((ident bound >>= f) ws).1 = .ok b ↔
    ∃ id left, ws = id :: left ∧ checkIdent bound id = .ok () ∧ (f id left).1 = .ok b := by
  cases ws with
  | nil =>
    constructor
    · intro h
      cases h
    · rintro ⟨id, left, h, -⟩
      cases h
  | cons w ws =>
    cases hw : checkIdent bound w with
    | error e =>
      rw [bind_of_error (by rw [ident_cons, hw]; rfl)]
      constructor
      · intro h
        cases h
      · rintro ⟨id, left, h, hid, -⟩
        cases h
        rw [hw] at hid
        cases hid
    | ok =>
      rw [bind_of_ok (by rw [ident_cons, hw]; rfl)]
      constructor
      · intro h
        exact ⟨w, ws, rfl, hw, h⟩
      · rintro ⟨id, left, h, -, hf⟩
        cases h
        exact hf

theorem ident_eq_bind_pure (bound : Word) : ident bound = ident bound >>= pure := by
  funext ws
  rcases h : ident bound ws with ⟨x, left⟩
  cases x with
  | ok id => rw [bind_of_ok h]; rfl
  | error e => rw [bind_of_error h]

/-- Whatever a read yields has the property. -/
def Yields (r : Read α) (P : α → Prop) : Prop := ∀ ws a rest, r ws = (.ok a, rest) → P a

theorem yields_pure {a : α} (h : P a) : (pure a : Read α).Yields P := fun _ _ _ h' => by
  cases h'
  exact h

theorem yields_fail (e : Fault) : (fail e : Read α).Yields P := fun _ _ _ h => by
  cases h

theorem yields_bind (h : ∀ a, (f a).Yields Q) : (r >>= f).Yields Q := by
  intro ws b rest hb
  rcases hr : r ws with ⟨x, left⟩
  cases x with
  | ok a =>
    rw [bind_of_ok hr] at hb
    exact h a left b rest hb
  | error e =>
    rw [bind_of_error hr] at hb
    cases hb

theorem Yields.of_run (h : r.Yields P) {a : α} (ha : r.run ws = .ok a) : P a := by
  rcases hr : r ws with ⟨x, rest⟩
  have hx : x = .ok a := by rw [← ha, run, hr]
  subst hx
  exact h ws a rest hr

end Read

/-! ## Statements -/

namespace Statement

open Read

variable {bound : Word} {inBody isMember : Bool}

/-- A statement that declares neither an entry point nor a constant that can be overridden. -/
def isPlain : Statement → Bool
  | .annotate (.entryPoint _) => false
  | .declare (.constant _ c) => !Specialization.isOverridable c
  | _ => true

theorem yields_readEntryPoint :
    (readEntryPoint bound).Yields fun a => ∃ d, a = .entryPoint d :=
  yields_bind fun _ => yields_bind fun _ => yields_bind fun _ => yields_bind fun _ =>
    yields_pure ⟨_, rfl⟩

theorem plain_readMode {byIdent : Bool} :
    (readMode bound byIdent).Yields fun a => isPlain (.annotate a) = true := by
  refine yields_bind fun _ => yields_bind fun _ => ?_
  cases byIdent <;> exact yields_bind fun _ => yields_pure rfl

theorem plain_readName :
    (readName bound isMember).Yields fun a => isPlain (.annotate a) = true :=
  yields_bind fun _ => yields_bind fun _ => yields_pure rfl

theorem plain_readDecoration :
    (readDecoration bound isMember).Yields fun a => isPlain (.annotate a) = true :=
  yields_bind fun _ => yields_bind fun _ => yields_bind fun _ => yields_pure rfl

theorem plain_readType (form : TypeForm) :
    (readType bound form).Yields fun d => isPlain (.declare d) = true := by
  unfold readType
  split
  · exact yields_bind fun _ => yields_bind fun _ => yields_pure rfl
  · exact yields_bind fun _ => yields_bind fun _ => yields_pure rfl

/-- A constant without constituents, which can be overridden if it is said so. -/
theorem yields_readConstant (isSpecialization : Bool) (form : ConstantForm) :
    (readConstant bound isSpecialization form).Yields fun d =>
      ∃ id c, d = .constant id c ∧ c.isSpecialization = isSpecialization := by
  refine yields_bind fun _ => yields_bind fun _ => yields_bind fun words => ?_
  cases form with
  | bool value => exact yields_pure ⟨_, _, rfl, rfl⟩
  | valueless => exact yields_pure ⟨_, _, rfl, rfl⟩
  | scalar =>
    cases words with
    | nil => exact yields_fail _
    | cons low high => exact yields_pure ⟨_, _, rfl, rfl⟩

theorem plain_readComposite {isSpecialization : Bool} :
    (readComposite bound isSpecialization).Yields fun d => isPlain (.declare d) = true :=
  yields_bind fun _ => yields_bind fun _ => yields_bind fun _ => yields_pure rfl

theorem plain_readSpecOperation :
    (readSpecOperation bound).Yields fun d => isPlain (.declare d) = true :=
  yields_bind fun _ => yields_bind fun _ => yields_bind fun _ => yields_bind fun _ =>
    yields_pure rfl

theorem plain_readGlobalVar :
    (readGlobalVar bound).Yields fun d => isPlain (.declare d) = true :=
  yields_bind fun _ => yields_bind fun _ => yields_bind fun _ => yields_pure rfl

theorem plain_readCall : (readCall bound).Yields fun d => isPlain (.declare d) = true :=
  yields_bind fun _ => yields_bind fun _ => yields_bind fun _ => yields_pure rfl

theorem plain_readAccess (shape : AccessShape) :
    (readAccess bound shape).Yields fun d => isPlain (.declare d) = true := by
  cases shape with
  | derive => exact yields_bind fun _ => yields_bind fun _ => yields_pure rfl
  | read => exact yields_bind fun _ => yields_bind fun _ => yields_pure rfl
  | write => exact yields_bind fun _ => yields_pure rfl
  | copy => exact yields_bind fun _ => yields_bind fun _ => yields_pure rfl

theorem plain_readSampledImage :
    (readSampledImage bound).Yields fun d => isPlain (.declare d) = true :=
  yields_bind fun _ => yields_bind fun _ => yields_bind fun _ => yields_pure rfl

/-- A constant that cannot be overridden is plain. -/
theorem plain_readConstant (form : ConstantForm) :
    (readConstant bound false form).Yields fun d => isPlain (.declare d) = true := by
  intro ws d rest h
  obtain ⟨id, c, rfl, hc⟩ := yields_readConstant false form ws d rest h
  unfold isPlain Specialization.isOverridable
  cases hk : c.kind <;> simp [hk, hc]

theorem plain_of_annotate {r : Read Annotation} {ws : List Word} {st : Statement}
    (hr : r.Yields fun a => isPlain (.annotate a) = true)
    (h : Statement.annotate <$> r.run ws = .ok st) : st.isPlain = true := by
  obtain ⟨a, ha, rfl⟩ := map_eq_ok_iff.mp h
  exact hr.of_run ha

theorem plain_of_declare {r : Read Declaration} {ws : List Word} {st : Statement}
    (hr : r.Yields fun d => isPlain (.declare d) = true)
    (h : Statement.declare <$> r.run ws = .ok st) : st.isPlain = true := by
  obtain ⟨d, hd, rfl⟩ := map_eq_ok_iff.mp h
  exact hr.of_run hd

/-- **What is not said by the instructions for it is plain.** -/
theorem isPlain_of_ofRole {i : Instruction} {role : Role} {st : Statement}
    (hentry : role ≠ .entryPoint) (hspec : ∀ form, role ≠ .specConstant form)
    (h : ofRole bound inBody i role = .ok st) : st.isPlain = true := by
  cases role with
  | entryPoint => exact absurd rfl hentry
  | specConstant form => exact absurd rfl (hspec form)
  | ignored =>
    cases h
    rfl
  | unsupported => cases h
  | executionMode byIdent => exact plain_of_annotate plain_readMode h
  | name => exact plain_of_annotate plain_readName h
  | memberName => exact plain_of_annotate plain_readName h
  | decoration => exact plain_of_annotate plain_readDecoration h
  | memberDecoration => exact plain_of_annotate plain_readDecoration h
  | type form =>
    cases inBody with
    | true => cases h
    | false => exact plain_of_declare (plain_readType form) h
  | constant form => exact plain_of_declare (plain_readConstant form) h
  | composite isSpec => exact plain_of_declare plain_readComposite h
  | specOperation => exact plain_of_declare plain_readSpecOperation h
  | globalVar =>
    cases inBody with
    | true =>
      cases h
      rfl
    | false => exact plain_of_declare plain_readGlobalVar h
  | function =>
    cases inBody with
    | true => cases h
    | false =>
      obtain ⟨id, -, rfl⟩ := map_eq_ok_iff.mp h
      rfl
  | functionEnd =>
    cases h
    rfl
  | functionCall => exact plain_of_declare plain_readCall h
  | access shape => exact plain_of_declare (plain_readAccess shape) h
  | sampledImage => exact plain_of_declare plain_readSampledImage h

/-! ## Opcodes -/

theorem mem_table_of_ofOpcode? {opcode : Opcode} {role : Role}
    (h : Role.ofOpcode? opcode = some role) : (opcode.toNat, role) ∈ Role.table := by
  obtain ⟨l₁, l₂, hl, -⟩ := List.lookup_eq_some_iff.mp h
  rw [hl]
  simp

theorem opcode_of_entryPoint {opcode : Opcode} (h : Role.ofOpcode? opcode = some .entryPoint) :
    opcode = opEntryPoint := by
  have hall : ∀ e ∈ Role.table, e.2 = .entryPoint → e.1 = 15 := by decide
  exact UInt32.toNat_inj.mp (hall _ (mem_table_of_ofOpcode? h) rfl)

theorem opcode_of_specConstant {opcode : Opcode} {form : ConstantForm}
    (h : Role.ofOpcode? opcode = some (.specConstant form)) :
    form = .bool true ∧ opcode = opSpecConstantTrue ∨
    form = .bool false ∧ opcode = opSpecConstantFalse ∨
    form = .scalar ∧ opcode = opSpecConstant := by
  have hmem := mem_table_of_ofOpcode? h
  have htrue : ∀ e ∈ Role.table, e.2 = .specConstant (.bool true) → e.1 = 48 := by decide
  have hfalse : ∀ e ∈ Role.table, e.2 = .specConstant (.bool false) → e.1 = 49 := by decide
  have hscalar : ∀ e ∈ Role.table, e.2 = .specConstant .scalar → e.1 = 50 := by decide
  have hnone : ∀ e ∈ Role.table, e.2 ≠ .specConstant .valueless := by decide
  cases form with
  | bool value =>
    cases value with
    | true => exact .inl ⟨rfl, UInt32.toNat_inj.mp (htrue _ hmem rfl)⟩
    | false => exact .inr (.inl ⟨rfl, UInt32.toNat_inj.mp (hfalse _ hmem rfl)⟩)
  | scalar => exact .inr (.inr ⟨rfl, UInt32.toNat_inj.mp (hscalar _ hmem rfl)⟩)
  | valueless => exact absurd rfl (hnone _ hmem)

end Statement

end ShaderReflect
