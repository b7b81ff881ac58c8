import ShaderReflect.Binary.Header
import ShaderReflect.Declared.Annotations
import ShaderReflect.Declared.Declarations
import ShaderReflect.Declared.TypeOrder
import ShaderReflect.Trace
import ShaderReflect.Visits

/-!
# The graph of a binary

A `Graph` is what a binary declares, checked to refer only to what is declared, with its types in an
order in which every type follows its operands (specification, 4.2). `Graph.ofWords` builds it in
these steps, of which all but the first make up `finalize`:

* the statements of the instructions are collected in order (`Draft.addItem`);
* the types are given what is said about them (`Draft.annotatedTypes`);
* the references are checked (`Graph.check`);
* the types are put in order (`TypeOrder.sort`).

The checks stop at the first violation. Types, forward pointers, constants, variables, entry points
and calls are checked group by group in this order. Within a group, variables are checked in
ascending order and entry points in the order of their declarations; the order within the other
groups is open, and `Visits` has it as a parameter. So a binary that breaks several rules of one
group is rejected in every run, but for whichever of its violations the run comes to first.

What is checked is what the later stages look up. A mode may belong to a function that is not
defined, its operands may be IDs that nothing is declared under (below the bound they are), and so
may the targets of names and decorations. The interface of an entry point is checked when the entry
point is analyzed (`Reach.analyze`).

* `Graph.type`, `Graph.constant`, `Graph.globalVar`, `Graph.pointee`: look-ups, with the fault of an
  ID that is not declared.
* `Graph.lengthSource`: a literal length is the first word of a constant that cannot be overridden;
  all others are specialized.
-/

namespace ShaderReflect

/-- What has been collected from the instructions so far. -/
structure Draft where
  annotations : Annotations := {}
  declarations : Declarations := {}

namespace Draft

/-- Collect a statement. -/
def addStatement (d : Draft) : Statement → Except Fault Draft
  | .ignored => .ok d
  | .annotate a => .ok { d with annotations := d.annotations.add a }
  | .declare c => do return { d with declarations := ← d.declarations.add c }

/-- Collect an instruction. -/
def addInstruction (bound : Word) (d : Draft) (i : Instruction) : Except Fault Draft := do
  d.addStatement (← Statement.read bound d.declarations.current.isSome i)

/-- Collect an item of the instruction stream, if it is an instruction. -/
def addItem (bound : Word) (d : Draft) (item : Except Fault Instruction) : Except Fault Draft := do
  d.addInstruction bound (← item)

/-- Collect all items of an instruction stream. No function may be open at its end. -/
def ofStream (bound : Word) (items : List (Except Fault Instruction)) : Except Fault Draft := do
  let d ← items.foldlM (addItem bound) {}
  if d.declarations.current.isSome then throw (.corrupted .unterminatedFunction)
  return d

/-- The declared types, with what is said about them. -/
def annotatedTypes (d : Draft) : Table Ident TypeDecl :=
  d.declarations.types.mapWithKey d.annotations.annotate

end Draft

/-- What a binary declares. -/
structure Graph where
  header : Header
  annotations : Annotations
  types : Table Ident TypeDecl
  /-- The types, each after its operands. -/
  typeOrder : List Ident
  forwardPointers : IdSet
  /-- The constants in the order of their declarations. -/
  constants : Table Ident Constant
  globals : Table Ident Variable
  functions : Table Ident FunctionBody

/-- Where the length of an array comes from. -/
inductive LengthSource
  /-- The literal word of a constant that cannot be overridden. -/
  | literal (length : Word)
  | specialized (constant : Ident)
deriving DecidableEq, Repr

namespace Graph

/-! ## Look-ups -/

/-- The type of an ID. -/
def type (g : Graph) (id : Ident) : Except Fault TypeDecl :=
  match g.types.get? id with
  | some decl => .ok decl
  | none => .error (.corrupted (.typeUndeclared id))

/-- The constant of an ID. -/
def constant (g : Graph) (id : Ident) : Except Fault Constant :=
  match g.constants.get? id with
  | some decl => .ok decl
  | none => .error (.corrupted (.constantUndeclared id))

/-- The variable of an ID. -/
def globalVar (g : Graph) (id : Ident) : Except Fault Variable :=
  match g.globals.get? id with
  | some decl => .ok decl
  | none => .error (.corrupted (.variableUndeclared id))

/-- The type that a variable points to. -/
def pointee (g : Graph) (v : Variable) : Except Fault Ident := do
  match ← g.type v.type with
  | .pointer _ pointee => return pointee
  | _ => throw (.corrupted (.notPointer v.type))

/-- Where the length of an array comes from that is held by a constant. -/
def lengthSource (g : Graph) (length : Ident) : Except Fault LengthSource := do
  match ← g.constant length with
  | { kind := .scalar low _, isSpecialization := false, .. } => return .literal low
  | _ => return .specialized length

/-- The constants that can be overridden, each with the ID for that, in order. -/
def specIds (g : Graph) : List (Ident × Word) :=
  g.constants.keys.filterMap fun id =>
    (g.annotations.decorationWord? id none Decoration.specId).map (id, ·)

/-! ## Checks -/

/-- The type refers to declared types and constants. -/
def checkType (g : Graph) (id : Ident) : Except Fault Unit := do
  let decl ← g.type id
  decl.operands.forM fun operand => discard (g.type operand)
  match decl with
  | .array _ length _ =>
    if !g.constants.contains length then throw (.corrupted (.lengthUndeclared id length))
  | .deviceAddress pointee => discard (g.type pointee)
  | _ => return

/-- The ID that was announced as a pointer is one. -/
def checkForwardPointer (g : Graph) (id : Ident) : Except Fault Unit :=
  match g.types.get? id with
  | some (.pointer _ _) | some (.deviceAddress _) => .ok ()
  | _ => .error (.corrupted (.forwardPointerUndeclared id))

/-- The constant refers to a declared type and to declared constants. -/
def checkConstant (g : Graph) (id : Ident) : Except Fault Unit := do
  let decl ← g.constant id
  discard (g.type decl.type)
  match decl.kind with
  | .composite constituents =>
    constituents.forM fun x =>
      if !g.constants.contains x then throw (.corrupted (.constituentUndeclared id x))
      else return
  | .operation opcode operands =>
    (ConstantKind.identOperands opcode operands).forM fun x => do
      Read.checkIdent g.header.bound x
      if !g.constants.contains x then throw (.corrupted (.operandUndeclared id x))
  | _ => return

/-- The type of the variable is a declared pointer type. -/
def checkVariable (g : Graph) (id : Ident) : Except Fault Unit := do
  let v ← g.globalVar id
  match ← g.type v.type with
  | .pointer _ _ => return
  | _ => throw (.corrupted (.variableWithoutPointer id))

/-- The function of the entry point has a body. -/
def checkEntryPoint (g : Graph) (e : EntryPointDecl) : Except Fault Unit :=
  if g.functions.contains e.function then .ok ()
  else .error (.corrupted (.entryPointWithoutFunction e.name))

/-- The functions that the function calls have bodies. -/
def checkCalls (g : Graph) (id : Ident) (callees : Visit := .ascending) : Except Fault Unit :=
  match g.functions.get? id with
  | none => .ok ()
  | some body =>
    (callees.order body.callees).forM fun callee =>
      if g.functions.contains callee then .ok ()
      else .error (.corrupted (.calleeUndefined callee))

/-- All references are to declared entities. The first one that is not is reported. -/
def check (g : Graph) (visits : Visits := {}) : Except Fault Unit := do
  (visits.types.order (.ofList g.types.keys)).forM g.checkType
  (visits.forwardPointers.order g.forwardPointers).forM g.checkForwardPointer
  (visits.constants.order (.ofList g.constants.keys)).forM g.checkConstant
  (IdSet.ofList g.globals.keys).ids.forM g.checkVariable
  g.annotations.entryPoints.forM g.checkEntryPoint
  (visits.functions.order (.ofList g.functions.keys)).forM fun id =>
    g.checkCalls id (visits.callees id)

/-! ## Building -/

/-- The graph of a draft, once its references are checked and its types are in order. -/
def ofDraft (header : Header) (d : Draft) (visits : Visits := {}) : Except Fault Graph := do
  let g : Graph := {
    header
    annotations := d.annotations
    types := d.annotatedTypes
    typeOrder := []
    forwardPointers := d.declarations.forwardPointers
    constants := d.declarations.constants
    globals := d.declarations.globals
    functions := d.declarations.functions }
  g.check visits
  return { g with typeOrder := ← TypeOrder.sort g.types }

/-- The graph of a binary whose header has been read. -/
def ofBody (header : Header) (body : List Word) (visits : Visits := {}) : Except Fault Graph := do
  ofDraft header (← Draft.ofStream header.bound (Instruction.stream body)) visits

/-- The graph of a binary. -/
def ofWords (words : List Word) (visits : Visits := {}) : Except Fault Graph := do
  let (header, body) ← Header.read words
  ofBody header body visits

/-- The graph of a binary, with a note of its size. -/
def load (words : List Word) (visits : Visits := {}) : Traced Graph := do
  let g ← ofWords words visits
  Traced.note (.graphBuilt g.types.size g.constants.size g.globals.size g.functions.size)
  return g

end Graph

end ShaderReflect
