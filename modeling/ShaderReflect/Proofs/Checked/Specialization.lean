import ShaderReflect.Proofs.Checked.Decoding
import ShaderReflect.Proofs.Checked.Evaluation
import ShaderReflect.Stage.Pairing

/-!
# No trap for any binary and any overrides

Constants are evaluated and lengths of arrays are looked up with operations that trap. None does:
the words of a number are at least one, as an instruction that declares a number without any is
refused.

* `apply_agrees`: all constants.
* `literalWords_eq`: the words of a number that a graph holds are those of its instruction.
* `never_traps`: all steps from the words of a binary to what its entry points reach.

The steps are those of the specification, 4.1 to 4.5: decoding, the graph, specialization, lengths,
the analysis and the pairing. What remains of a reflection, sizes and the number of descriptors, can
leave the range of its numbers; `Proofs/Checked/Layout` and `Proofs/Queries` say when. Steps without
an operation that could trap, such as the checks of a graph, are taken as they are, so it does not
matter in which order declarations are visited.
-/

namespace ShaderReflect.Checked

variable {g : Graph} {words : List Word} {id : Ident} {bound : Word}

/-! ## Constants -/

/-- The size of a scalar in bytes. -/
def scalarSize : TypeDecl → Except Trap (Option Nat)
  | .bool => return some 4
  | .int width _ | .float width => return some ((← addSize width.toNat 7) / 8)
  | _ => return none

/-- The value of an operation on constants. -/
def evalOperation (s : Specialization) (type : TypeDecl) (opcode : Opcode)
    (operands : List Word) : Except Trap (Option Value) :=
  if opcode = opCompositeExtract then
    return operands.head?.bind fun id => (s.value? id).bind (·.extract? operands.tail)
  else
    match operands.mapM s.scalar? with
    | none => return none
    | some args => return (← fold opcode type args).map .scalar

/-- The value of a constant that is not overridden. -/
def eval (s : Specialization) (type : TypeDecl) : ConstantKind → Except Trap (Option Value)
  | .bool b => return some (.scalar (.bool b))
  | .scalar low high => return (← ofWords type (low :: high)).map .scalar
  | .composite constituents => return (constituents.mapM s.value?).map .composite
  | .operation opcode operands => evalOperation s type opcode operands
  | .valueless => return none

/-- The value of a constant that is overridden by bytes. -/
def evalOverride (id : Ident) (c : Constant) (type : TypeDecl) (bytes : List UInt8) :
    Run (Option Value) := do
  if !Specialization.isOverridable c then
    throw (.fault (.specialization (.notScalarDefault id)))
  match ← scalarSize type with
  | none => throw (.fault (.corrupted (.notScalar id)))
  | some size =>
    if bytes.length ≠ size then
      throw (.fault (.invalidArgument (.overrideSize id bytes.length size)))
    return (← ofBytes type bytes).map .scalar

/-- Evaluate the next constant. -/
def step (g : Graph) (os : Overrides) (s : Specialization) (id : Ident) : Run Specialization := do
  let c ← total (g.constant id)
  let type ← total (g.type c.type)
  let specId := g.annotations.decorationWord? id none Decoration.specId
  match g.overrideOf os id with
  | some bytes =>
    let value ← evalOverride id c type bytes
    return s.record g id c specId value true
  | none =>
    let value ← eval s type c.kind
    return s.record g id c specId value false

/-- Evaluate all constants under overrides. -/
def apply (g : Graph) (overrides : List Override) : Run Specialization := do
  let os ← total (Overrides.ofList overrides)
  g.constants.keys.foldlM (step g os) {}

theorem scalarSize_eq (type : TypeDecl) : scalarSize type = .ok type.scalarSize? := by
  have hsize : ∀ width : Word, addSize width.toNat 7 = .ok (width.toNat + 7) := fun width => by
    have hwidth := width.toNat_lt
    refine addSize_eq_ok ?_
    unfold Bounded.sizeCeiling
    omega
  cases type with
  | int width signed =>
    rw [scalarSize, hsize]
    rfl
  | float width =>
    rw [scalarSize, hsize]
    rfl
  | _ => rfl

theorem eval_eq (s : Specialization) (type : TypeDecl) (kind : ConstantKind) :
    eval s type kind = .ok (s.eval type kind).2 := by
  cases kind with
  | scalar low high => simp only [eval, ofWords_eq, ok_bind, pure_eq_ok, Specialization.eval]
  | operation opcode operands =>
    unfold eval evalOperation Specialization.eval Specialization.evalOperation
    by_cases hextract : opcode = opCompositeExtract
    · simp [hextract]
    · simp only [hextract, if_false]
      cases operands.mapM s.scalar? with
      | none => rfl
      | some args =>
        simp only [fold_eq, ok_bind, pure_eq_ok]
        cases fold? opcode type args <;> rfl
  | _ => rfl

theorem evalOverride_eq (id : Ident) (c : Constant) (type : TypeDecl) (bytes : List UInt8) :
    evalOverride id c type bytes = total (Specialization.evalOverride id c type bytes) := by
  unfold evalOverride Specialization.evalOverride
  simp only [scalarSize_eq, ofBytes_eq, liftM_trap_ok, ok_bind]
  cases type.scalarSize? with
  | none => split <;> rfl
  | some size =>
    dsimp only
    repeat' split
    all_goals rfl

theorem step_agrees (g : Graph) (os : Overrides) (s : Specialization) (id : Ident) :
    Agrees (step g os s id) (Specialization.step g os s id).result := by
  rw [Specialization.result_step]
  unfold step
  refine (agrees_total _).bind fun c => (agrees_total _).bind fun type => ?_
  simp only [evalOverride_eq, eval_eq, liftM_trap_ok, ok_bind]
  cases g.overrideOf os id with
  | some bytes => exact (agrees_total _).bind fun value => agrees_total (.ok _)
  | none => exact agrees_total (.ok _)

/-- **All constants are evaluated** without a trap. -/
theorem apply_agrees (g : Graph) (overrides : List Override) :
    Agrees (apply g overrides) (Specialization.apply g overrides).result := by
  rw [Specialization.result_apply]
  exact (agrees_total _).bind fun os => foldlM_agrees (step_agrees g os) _ _

/-! ## The words of a number -/

/-- The words of the value that a declaration gives to a number. -/
def wordsOf : Declaration → List Word
  | .constant _ { kind := .scalar low high, .. } => low :: high
  | _ => []

section

open Read Statement

theorem wordsOf_readType (form : TypeForm) :
    (readType bound form).Yields fun d => wordsOf d = [] := by
  unfold readType
  split
  · exact yields_bind fun _ => yields_bind fun _ => yields_pure rfl
  · exact yields_bind fun _ => yields_bind fun _ => yields_pure rfl

theorem wordsOf_readAccess (shape : AccessShape) :
    (readAccess bound shape).Yields fun d => wordsOf d = [] := by
  cases shape with
  | derive => exact yields_bind fun _ => yields_bind fun _ => yields_pure rfl
  | read => exact yields_bind fun _ => yields_bind fun _ => yields_pure rfl
  | write => exact yields_bind fun _ => yields_pure rfl
  | copy => exact yields_bind fun _ => yields_bind fun _ => yields_pure rfl

theorem wordsOf_of_run {r : Read Declaration} {ws : List Word} {d : Declaration}
    (hr : r.Yields fun d => wordsOf d = [])
    (h : Statement.declare <$> r.run ws = .ok (.declare d)) : wordsOf d = [] := by
  obtain ⟨d', hd, heq⟩ := map_eq_ok_iff.mp h
  cases heq
  exact hr.of_run hd

theorem wordsOf_readConstant {isSpecialization : Bool} {form : ConstantForm} {ws : List Word}
    {d : Declaration} (h : Statement.declare <$>
      (readConstant bound isSpecialization form).run ws = .ok (.declare d)) :
    wordsOf d = [] ∨ wordsOf d = ws.drop 2 := by
  obtain ⟨d', hd, heq⟩ := map_eq_ok_iff.mp h
  cases heq
  obtain ⟨type, id, words, kind, rfl, -, -, hkind, rfl⟩ :=
    Defaults.run_readConstant_eq_ok_iff.mp hd
  cases form with
  | bool value =>
    cases hkind
    exact .inl rfl
  | valueless =>
    cases hkind
    exact .inl rfl
  | scalar =>
    cases words with
    | nil => cases hkind
    | cons low high =>
      cases hkind
      exact .inr rfl

/-- **The words of a number** are the operands after its type and its ID. -/
theorem wordsOf_read {i : Instruction} {d : Declaration}
    (h : Statement.read bound false i = .ok (.declare d)) :
    wordsOf d = [] ∨ wordsOf d = i.operands.drop 2 := by
  unfold Statement.read at h
  split at h
  · rename_i role hrole
    cases role with
    | constant form => exact wordsOf_readConstant h
    | specConstant form => exact wordsOf_readConstant h
    | type form => exact .inl (wordsOf_of_run (wordsOf_readType form) h)
    | access shape => exact .inl (wordsOf_of_run (wordsOf_readAccess shape) h)
    | composite isSpec =>
      exact .inl (wordsOf_of_run (yields_bind fun _ => yields_bind fun _ => yields_bind fun _ =>
        yields_pure rfl) h)
    | specOperation =>
      exact .inl (wordsOf_of_run (yields_bind fun _ => yields_bind fun _ => yields_bind fun _ =>
        yields_bind fun _ => yields_pure rfl) h)
    | globalVar | functionCall | sampledImage =>
      exact .inl (wordsOf_of_run (yields_bind fun _ => yields_bind fun _ => yields_bind fun _ =>
        yields_pure rfl) h)
    | function =>
      obtain ⟨id, -, heq⟩ := map_eq_ok_iff.mp h
      cases heq
      exact .inl rfl
    | functionEnd =>
      cases h
      exact .inl rfl
    | ignored => cases h
    | unsupported => cases h
    | entryPoint | executionMode | name | memberName | decoration | memberDecoration =>
      obtain ⟨a, -, heq⟩ := map_eq_ok_iff.mp h
      cases heq
  · cases h

end

/-- The words after the type and the ID in the instruction that declares a constant. -/
def literalWords (words : List Word) (bound : Word) (id : Ident) : List Word :=
  match (Graph.instructions words).find? fun i => (i.constant? bound).any (·.1 = id) with
  | some i => i.operands.drop 2
  | none => []

theorem read_of_constant? {i : Instruction} {c : Constant}
    (h : i.constant? bound = some (id, c)) :
    Statement.read bound false i = .ok (.declare (.constant id c)) := by
  unfold Instruction.constant? at h
  split at h
  · rename_i d hread
    cases d with
    | constant id' c' =>
      cases h
      exact hread
    | _ => cases h
  · cases h

/-- A constant is in the graph of a binary exactly if an instruction declares it. -/
theorem get?_constants_iff {c : Constant} (hg : Graph.ofWords words = .ok g) :
    g.constants.get? id = some c ↔
      ∃ i ∈ Graph.instructions words, i.constant? g.header.bound = some (id, c) := by
  obtain ⟨d, hfold, -, -, -, hconstants, -⟩ := Graph.exists_draft_of_ofWords hg
  rw [Table.get?_eq_some_iff, hconstants, Draft.constants_foldlM hfold]
  exact List.mem_filterMap

/-- What is found for a constant is an instruction that declares it. -/
theorem literalWords_of_get? {c : Constant} (hg : Graph.ofWords words = .ok g)
    (hc : g.constants.get? id = some c) : ∃ i : Instruction,
      i.constant? g.header.bound = some (id, c) ∧
      literalWords words g.header.bound id = i.operands.drop 2 := by
  obtain ⟨i, hi, hic⟩ := (get?_constants_iff hg).mp hc
  unfold literalWords
  split
  · rename_i i' hfind
    have hany := List.find?_some hfind
    obtain ⟨⟨id', c'⟩, hic', hid⟩ := (Option.any_eq_true _ _).mp hany
    obtain rfl : id' = id := of_decide_eq_true hid
    -- The graph holds one constant under an ID, so what was found declares the same one.
    have hc' := (get?_constants_iff hg).mpr ⟨i', List.mem_of_find?_eq_some hfind, hic'⟩
    rw [hc, Option.some.injEq] at hc'
    exact ⟨i', by rw [hic', hc'], rfl⟩
  · rename_i hnone
    have hnot := List.find?_eq_none.mp hnone i hi
    simp [hic] at hnot

/-- **A number has the words of its instruction**, of which there is at least one. -/
theorem literalWords_eq {c : Constant} {low : Word} {high : List Word}
    (hg : Graph.ofWords words = .ok g) (hc : g.constants.get? id = some c)
    (hk : c.kind = .scalar low high) : literalWords words g.header.bound id = low :: high := by
  obtain ⟨i, hic, hwords⟩ := literalWords_of_get? hg hc
  have hnumber : wordsOf (.constant id c) = low :: high := by
    cases c
    cases hk
    rfl
  rw [hwords, ← hnumber]
  rcases wordsOf_read (read_of_constant? hic) with hnil | hdrop
  · rw [hnumber] at hnil
    cases hnil
  · exact hdrop.symm

/-! ## Lengths of arrays -/

/-- Where the length of an array comes from that is held by a constant. The words of a constant that
cannot be overridden hold the length in the first place. -/
def lengthSource (words : List Word) (g : Graph) (length : Ident) : Run LengthSource := do
  match ← total (g.constant length) with
  | { kind := .scalar _ _, isSpecialization := false, .. } =>
    return .literal (← index (literalWords words g.header.bound length) 0)
  | _ => return .specialized length

/-- The value of a constant that is a natural number. -/
def naturalOf (s : Specialization) (id : Ident) : Except Trap (Option Word) :=
  match s.scalar? id with
  | some value => natural value
  | none => return none

/-- The length of an array that is held by a constant. -/
def arrayLength (words : List Word) (s : Specialization) (g : Graph) (length : Ident) :
    Run Word := do
  let n? ← naturalOf s length
  let source ← lengthSource words g length
  match n?.filter (· > 0), source with
  | some n, _ => return n
  | none, .literal _ => throw (.fault (.corrupted (.arrayLength length)))
  | none, .specialized _ => throw (.fault (.specialization (.arrayLength length)))

theorem naturalOf_eq (s : Specialization) (id : Ident) :
    naturalOf s id = .ok ((s.scalar? id).bind Scalar.natural?) := by
  unfold naturalOf
  cases s.scalar? id with
  | none => rfl
  | some value => exact natural_eq value

/-- **The first word of a length is there.** -/
theorem lengthSource_eq (hg : Graph.ofWords words = .ok g) (length : Ident) :
    lengthSource words g length = total (g.lengthSource length) := by
  unfold lengthSource Graph.lengthSource
  cases hc : g.constant length with
  | error e => rfl
  | ok c =>
    obtain ⟨type, kind, isSpecialization⟩ := c
    cases kind with
    | scalar low high =>
      cases isSpecialization with
      | true => rfl
      | false =>
        have hwords := literalWords_eq hg (Graph.constant_eq_ok_iff.mp hc) rfl
        simp only [total_ok, ok_bind, hwords]
        rfl
    | _ => rfl

theorem arrayLength_eq (hg : Graph.ofWords words = .ok g) (s : Specialization) (length : Ident) :
    arrayLength words s g length = total (s.arrayLength g length) := by
  unfold arrayLength Specialization.arrayLength
  rw [naturalOf_eq, lengthSource_eq hg, total_bind, liftM_trap_ok, ok_bind]
  refine congrArg _ (funext fun source => ?_)
  cases ((s.scalar? length).bind Scalar.natural?).filter (· > 0) <;> cases source <;> rfl

/-! ## Entry points -/

theorem result_trace (g : Graph) (e : EntryPointDecl) (all : Bool) :
    (Reach.trace g e all).result = liftM (Reach.analyze g e all) := by
  unfold Reach.trace
  simp only [Traced.result_bind, Traced.result_liftM_fault]
  cases Reach.analyze g e all <;> rfl

theorem result_trace_pairing (g : Graph) (r : Reach) :
    (Pairing.trace g r).result = .ok (Pairing.combine g r) := by
  unfold Pairing.trace
  simp only [Traced.result_bind]
  rw [Traced.result_forM_note]
  rfl

/-! ## All steps -/

/-- **No step traps.** Whatever the words of a binary are, its header and its graph are a result or
a fault, and its body is cut to the end. Of a graph and any overrides, the values of the constants,
the sources and the lengths of arrays, what entry points reach and how images and samplers belong
together are results or faults. In each case these are the ones of the same step without traps. -/
theorem never_traps (words : List Word) (overrides : List Override) :
    readHeader words = total (Header.read words) ∧
    (∀ body, stream body = .ok (Instruction.stream body)) ∧
    graph words = total (Graph.ofWords words) ∧
    ∀ g, Graph.ofWords words = .ok g →
      Agrees (apply g overrides) (Specialization.apply g overrides).result ∧
      (∀ id, lengthSource words g id = total (g.lengthSource id)) ∧
      (∀ s id, arrayLength words s g id = total (Specialization.arrayLength s g id)) ∧
      (∀ e all, (Reach.trace g e all).result = liftM (Reach.analyze g e all)) ∧
      ∀ r, (Pairing.trace g r).result = .ok (Pairing.combine g r) :=
  ⟨readHeader_eq words, stream_eq, graph_eq words, fun g hg =>
    ⟨apply_agrees g overrides, lengthSource_eq hg, arrayLength_eq hg, result_trace g,
      result_trace_pairing g⟩⟩

set_option maxRecDepth 100000 in
/-- The constant that holds the length of the array in the small binary is overridden. -/
theorem sample_never_traps : ∃ g σ, graph (sampleWords 1) = .ok g ∧
    apply g [⟨1, [7, 0, 0, 0]⟩] = .ok σ ∧ arrayLength (sampleWords 1) σ g 16 = .ok 7 := by
  obtain ⟨g, hg, hany⟩ := exists_eq_ok_of_any (x := Graph.ofWords (sampleWords 1))
    (p := fun g => (Specialization.apply g [⟨1, [7, 0, 0, 0]⟩]).result.toOption.any fun σ =>
      (σ.arrayLength g 16).toOption.any (· = 7)) (by decide +kernel)
  obtain ⟨σ, hσ, hlength⟩ := exists_eq_ok_of_any hany
  obtain ⟨n, hn, hseven⟩ := exists_eq_ok_of_any hlength
  obtain ⟨-, -, hgraph, hrest⟩ := never_traps (sampleWords 1) [⟨1, [7, 0, 0, 0]⟩]
  obtain ⟨⟨y, hy, hresult⟩, -, hlengths, -⟩ := hrest g hg
  rw [hσ] at hresult
  rw [liftM_fault_eq_ok_iff.mp hresult.symm] at hy
  rw [hg] at hgraph
  refine ⟨g, σ, hgraph, hy, ?_⟩
  rw [hlengths, hn, of_decide_eq_true hseven]
  rfl

end ShaderReflect.Checked
