import ShaderReflect.Proofs.Binary.Decoding
import ShaderReflect.Proofs.Graph

/-!
# Annotations may stand anywhere

An annotation is read without looking at what has been declared, and nothing that is declared looks
at annotations. So collecting a stream of instructions is to collect its annotations, and apart from
that all else, each in its own order. How the two are mixed shows nowhere in the graph.

* `Statement.read_of_annotates`, `Statement.not_annotate_of_read`: what says an annotation.
* `Draft.ofStream_parts_iff`: collecting a stream, annotations apart.
* `Graph.ofWords_interleaved`: two binaries that differ in how they are mixed have the same graph.

Specification, 4.2 (forward references are allowed). Entry points and execution modes are among the
annotations. The result is about binaries that have a graph: a binary that is rejected may be
rejected for something else once its instructions are mixed in another way, as reading stops at the
first instruction that is wrong.
-/

namespace ShaderReflect

open Instruction

/-! ## Annotations among instructions -/

/-- The opcodes of annotations: names of entities and of members, entry points, execution modes,
decorations of entities and of members, and execution modes whose operands are IDs. -/
def annotationOpcodes : List Nat := [5, 6, 15, 16, 71, 72, 331]

/-- Whether an instruction is an annotation. -/
def Instruction.annotates (i : Instruction) : Bool :=
  annotationOpcodes.contains i.opcode.toNat

/-- Whether an item of an instruction stream is an annotation. -/
def annotates : Except Fault Instruction → Bool
  | .ok i => i.annotates
  | .error _ => false

/-- Whether instructions with a role are annotations. -/
def Role.annotates : Role → Bool
  | .entryPoint | .executionMode _ | .name | .memberName | .decoration | .memberDecoration => true
  | _ => false

namespace Statement

variable {bound : Word} {inBody : Bool} {i : Instruction}

/-- Annotations are the instructions with such a role. -/
theorem annotates_of_ofOpcode? {role : Role} (h : Role.ofOpcode? i.opcode = some role) :
    i.annotates = role.annotates := by
  have hall : ∀ e ∈ Role.table, annotationOpcodes.contains e.1 = e.2.annotates := by decide
  exact hall _ (mem_table_of_ofOpcode? h)

theorem exists_role_of_annotates (h : i.annotates = true) :
    ∃ role, Role.ofOpcode? i.opcode = some role ∧ role.annotates = true := by
  have hall : ∀ n ∈ annotationOpcodes, (Role.table.lookup n).isSome = true := by decide
  obtain ⟨role, hrole⟩ := Option.isSome_iff_exists.mp (hall _ (List.contains_iff_mem.mp h))
  exact ⟨role, hrole, (annotates_of_ofOpcode? hrole).symm.trans h⟩

/-- **An annotation is read alike wherever it stands.** -/
theorem read_of_annotates (h : i.annotates = true) (bound : Word) :
    ∃ x : Except Fault Annotation, ∀ inBody, read bound inBody i = .annotate <$> x := by
  obtain ⟨role, hrole, hannotation⟩ := exists_role_of_annotates h
  have hread : ∀ inBody, read bound inBody i = ofRole bound inBody i role := by
    intro inBody
    unfold read
    rw [hrole]
  simp only [hread]
  cases role with
  | entryPoint | executionMode byIdent | name | memberName | decoration | memberDecoration =>
    exact ⟨_, fun _ => rfl⟩
  | _ => cases hannotation

/-- **No other instruction says an annotation.** -/
theorem not_annotate_of_read (h : i.annotates = false) (a : Annotation) :
    read bound inBody i ≠ .ok (.annotate a) := by
  intro hread
  unfold read at hread
  split at hread
  · rename_i role hrole
    rw [annotates_of_ofOpcode? hrole] at h
    cases role with
    | entryPoint | executionMode byIdent | name | memberName | decoration | memberDecoration =>
      cases h
    | ignored | unsupported | functionEnd => cases hread
    | type form | globalVar | function =>
      cases inBody with
      | true => cases hread
      | false =>
        obtain ⟨_, -, heq⟩ := map_eq_ok_iff.mp hread
        cases heq
    | constant form | specConstant form | composite isSpec | specOperation | functionCall
    | access shape | sampledImage =>
      obtain ⟨_, -, heq⟩ := map_eq_ok_iff.mp hread
      cases heq
  · cases inBody <;> cases hread

end Statement

/-! ## Collecting annotations apart -/

/-- The annotations with what an item of an instruction stream adds to them. -/
def Annotations.addItem (bound : Word) (as : Annotations) (item : Except Fault Instruction) :
    Except Fault Annotations := do
  match ← Statement.read bound false (← item) with
  | .annotate a => return as.add a
  | _ => return as

/-- The declarations with what an item of an instruction stream adds to them. -/
def Declarations.addItem (bound : Word) (ds : Declarations) (item : Except Fault Instruction) :
    Except Fault Declarations := do
  match ← Statement.read bound ds.current.isSome (← item) with
  | .declare d => ds.add d
  | _ => return ds

namespace Draft

variable {bound : Word} {d : Draft} {item : Except Fault Instruction}
  {items : List (Except Fault Instruction)}

/-- An annotation leaves the declarations as they are, and does not look at them. -/
theorem addItem_of_annotates (h : annotates item = true) (as : Annotations)
    (ds : Declarations) :
    addItem bound ⟨as, ds⟩ item = (Draft.mk · ds) <$> as.addItem bound item := by
  cases item with
  | error e => cases h
  | ok i =>
    obtain ⟨x, hx⟩ := Statement.read_of_annotates h bound
    unfold addItem addInstruction Annotations.addItem
    simp only [ok_bind, hx]
    cases x <;> rfl

/-- All else leaves the annotations as they are, and does not look at them. -/
theorem addItem_of_not_annotates (h : annotates item = false) (as : Annotations)
    (ds : Declarations) :
    addItem bound ⟨as, ds⟩ item = Draft.mk as <$> ds.addItem bound item := by
  cases item with
  | error e => rfl
  | ok i =>
    unfold addItem addInstruction Declarations.addItem
    simp only [ok_bind]
    cases hread : Statement.read bound ds.current.isSome i with
    | error e => rfl
    | ok st =>
      cases st with
      | ignored => rfl
      | annotate a => exact absurd hread (Statement.not_annotate_of_read h a)
      | declare c =>
        simp only [ok_bind, addStatement]
        cases ds.add c <;> rfl

/-- **Collecting a stream** is to collect its annotations, and apart from that all else. -/
theorem ofStream_parts_iff : ofStream bound items = .ok d ↔
    (items.filter annotates).foldlM (Annotations.addItem bound) {} = .ok d.annotations ∧
    (items.filter (!annotates ·)).foldlM (Declarations.addItem bound) {} =
      .ok d.declarations ∧ d.declarations.current = none := by
  rw [ofStream_items_iff,
    foldlM_parts_iff (fun _ => addItem_of_annotates) (fun _ => addItem_of_not_annotates)]
  constructor
  · rintro ⟨⟨as, ds, has, hds, rfl⟩, hcurrent⟩
    exact ⟨has, hds, hcurrent⟩
  · rintro ⟨has, hds, hcurrent⟩
    exact ⟨⟨_, _, has, hds, rfl⟩, hcurrent⟩

end Draft

/-! ## Graphs -/

namespace Graph

variable {words words' body body' : List Word} {header : Header}

/-- **Annotations may stand anywhere.** Two binaries have the same graph, or none, if they have the
same header, the same annotations in the same order, and apart from annotations the same
instructions in the same order. -/
theorem ofWords_interleaved (h : Header.read words = .ok (header, body))
    (h' : Header.read words' = .ok (header, body'))
    (hannotations : (stream body).filter annotates = (stream body').filter annotates)
    (hothers : (stream body).filter (!annotates ·) = (stream body').filter (!annotates ·))
    (g : Graph) : ofWords words = .ok g ↔ ofWords words' = .ok g := by
  have hdrafts : ∀ d, Draft.ofStream header.bound (stream body) = .ok d ↔
      Draft.ofStream header.bound (stream body') = .ok d := by
    intro d
    rw [Draft.ofStream_parts_iff, Draft.ofStream_parts_iff, hannotations, hothers]
  unfold ofWords ofBody
  simp only [h, h', ok_bind, bind_eq_ok_iff, hdrafts]

/-- The annotations of a struct with one member and of a function. -/
def sampleAnnotations : List Instruction := [⟨6, [2, 0, 0x78]⟩, ⟨15, [5, 5, 0x6d]⟩, ⟨71, [2, 3]⟩]

/-- The struct, and the function without what is in its body. -/
def sampleDeclarations : List Instruction :=
  [⟨22, [1, 32]⟩, ⟨30, [2, 1]⟩, ⟨19, [3]⟩, ⟨54, [3, 5, 0, 4]⟩, ⟨56, []⟩]

/-- The annotations among the declarations, one of them within the body of the function. -/
def sampleMixed : List Instruction := [⟨22, [1, 32]⟩, ⟨6, [2, 0, 0x78]⟩, ⟨30, [2, 1]⟩, ⟨19, [3]⟩,
  ⟨54, [3, 5, 0, 4]⟩, ⟨15, [5, 5, 0x6d]⟩, ⟨56, []⟩, ⟨71, [2, 3]⟩]

/-- A binary of version 1.0 that consists of some instructions. -/
def sampleBinary (is : List Instruction) : List Word :=
  (Header.mk 0x07230203 1 0 0 6 0).words ++ is.flatMap Instruction.words

/-- The annotations may stand before the declarations or among them. -/
theorem sample_ofWords_interleaved : ∃ g,
    ofWords (sampleBinary (sampleAnnotations ++ sampleDeclarations)) = .ok g ∧
    ofWords (sampleBinary sampleMixed) = .ok g ∧ g.functions.keys = [5] ∧
    g.types.get? 2 = some (.struct none [{ type := 1, name := some "x" }] true) := by
  obtain ⟨g, hg, hfacts⟩ := exists_eq_ok_of_any
    (x := ofWords (sampleBinary (sampleAnnotations ++ sampleDeclarations)))
    (p := fun g => g.functions.keys = [5] ∧
      g.types.get? 2 = some (.struct none [{ type := 1, name := some "x" }] true))
    (by decide +kernel)
  have hread : ∀ is : List Instruction, Header.read (sampleBinary is) =
      .ok (Header.mk 0x07230203 1 0 0 6 0, is.flatMap Instruction.words) := fun is =>
    Header.read_eq_ok_iff.mpr ⟨by decide, rfl⟩
  have hfirst : stream ((sampleAnnotations ++ sampleDeclarations).flatMap Instruction.words) = _ :=
    stream_flatMap_words (by decide)
  have hsecond : stream (sampleMixed.flatMap Instruction.words) = _ :=
    stream_flatMap_words (by decide)
  have hsame := ofWords_interleaved (hread _) (hread sampleMixed)
    (by rw [hfirst, hsecond]; rfl) (by rw [hfirst, hsecond]; rfl) g
  exact ⟨g, hg, hsame.mp hg, of_decide_eq_true hfacts⟩

end Graph

end ShaderReflect
