import ShaderReflect.Graph
import ShaderReflect.Trace
import ShaderReflect.Value.Fold

/-!
# Specialization

The constants of a binary are evaluated in the order of their declarations (specification, 4.3). A
specialization constant takes its value from an override if there is one for its ID; another
constant takes it from its words, its constituents or its operands. A constant that depends on one
without a value, or on one that is declared later, has no value. To have none is not a fault; it
becomes one where the value is needed.

* `Overrides.ofList`: the overrides by ID, if each has a value and no two share an ID. The list is
  gone through from the left, and an override without a value is found before one that is repeated.
* `Specialization.step`: one more constant. An override that does not fit its constant is a fault:
  the constant has to have a scalar default, its type has to be a scalar, and the bytes have to be
  as many as that takes.
* `Specialization.apply`: the values, with the constants that a client can override.
* `Specialization.arrayLength`: the length of an array, which is a positive integer (`array_len`).
  If it is none, a literal length makes the binary corrupted, and any other a failed specialization.

Several constants may share a specialization ID; each of them takes the override. Overrides that no
constant takes are noted, in an order that is open (`Visits.overrides`). Of operations, a composite
extract is evaluated on values with parts, and all others on scalars (`fold?`).
-/

namespace ShaderReflect

/-- A value for the constants with a given specialization ID: the bytes of a scalar, the low-order
one first. -/
structure Override where
  specId : Word
  bytes : List UInt8
deriving DecidableEq, Repr

/-- The bytes of overrides by specialization ID. -/
abbrev Overrides := Table Word (List UInt8)

namespace Overrides

/-- The overrides with one more. -/
def add (os : Overrides) (o : Override) : Except Fault Overrides :=
  if o.bytes.isEmpty then .error (.outOfRange (.emptyOverride o.specId))
  else match os.insertNew? o.specId o.bytes with
    | some os' => .ok os'
    | none => .error (.invalidArgument (.repeatedOverride o.specId))

/-- The overrides of a list, each with a value and an ID of its own. -/
def ofList (list : List Override) : Except Fault Overrides := list.foldlM add .empty

end Overrides

/-- The value of a constant. A composite keeps its parts, which can be extracted. -/
inductive Value
  | scalar (value : Scalar)
  | composite (parts : List Value)
deriving Repr

namespace Value

/-- The scalar of a value that is one. -/
def scalar? : Value → Option Scalar
  | .scalar s => some s
  | .composite _ => none

/-- The part of a value that is reached by indices, the outermost first. -/
def extract? : Value → List Word → Option Value
  | v, [] => some v
  | .composite parts, i :: is => (parts[i.toNat]?).bind (·.extract? is)
  | .scalar _, _ :: _ => none

end Value

/-- A constant that can be overridden. -/
structure SpecConstant where
  name : Option String
  specId : Word
  constant : Ident
  type : Ident
  /-- Absent if the constant has no value or is not a scalar. -/
  value : Option Scalar
  isOverridden : Bool
deriving DecidableEq, Repr

/-- The values of the constants of a binary. -/
structure Specialization where
  values : Table Ident Value := .empty
  /-- The constants that can be overridden, in order. -/
  specConstants : List SpecConstant := []

namespace Specialization

/-- The value of a constant. -/
def value? (s : Specialization) (id : Ident) : Option Value := s.values.get? id

/-- The value of a constant that is a scalar. -/
def scalar? (s : Specialization) (id : Ident) : Option Scalar := (s.value? id).bind Value.scalar?

/-! ## Evaluation -/

/-- The value of an operation on constants, with the event of an operation that does not fold. -/
def evalOperation (s : Specialization) (type : TypeDecl) (opcode : Opcode)
    (operands : List Word) : List Event × Option Value :=
  if opcode = opCompositeExtract then
    ([], operands.head?.bind fun id => (s.value? id).bind (·.extract? operands.tail))
  else
    match operands.mapM s.scalar? with
    | none => ([], none)
    | some args =>
      match fold? opcode type args with
      | some result => ([], some (.scalar result))
      | none => ([.operationNotFolded opcode args], none)

/-- The value of a constant that is not overridden. -/
def eval (s : Specialization) (type : TypeDecl) : ConstantKind → List Event × Option Value
  | .bool b => ([], some (.scalar (.bool b)))
  | .scalar low high => ([], (Scalar.ofWords? type low high).map .scalar)
  | .composite constituents => ([], (constituents.mapM s.value?).map .composite)
  | .operation opcode operands => s.evalOperation type opcode operands
  | .valueless => ([], none)

/-- Whether a constant is a specialization constant with a scalar default. -/
def isOverridable (c : Constant) : Bool :=
  match c.kind with
  | .bool _ | .scalar _ _ => c.isSpecialization
  | _ => false

/-- The value of a constant that is overridden by bytes. -/
def evalOverride (id : Ident) (c : Constant) (type : TypeDecl) (bytes : List UInt8) :
    Except Fault (Option Value) := do
  if !isOverridable c then
    throw (.specialization (.notScalarDefault id))
  match type.scalarSize? with
  | none => throw (.corrupted (.notScalar id))
  | some size =>
    if bytes.length ≠ size then
      throw (.invalidArgument (.overrideSize id bytes.length size))
    return (Scalar.ofBytes? type bytes).map .scalar

/-- The specialization with the value of a constant. -/
def record (s : Specialization) (g : Graph) (id : Ident) (c : Constant) (specId : Option Word)
    (value : Option Value) (isOverridden : Bool) : Specialization where
  values :=
    match value with
    | some v => s.values.insertFirst id v
    | none => s.values
  specConstants :=
    match specId with
    | some specId => s.specConstants ++ [{
        specId, isOverridden
        name := g.annotations.name? id none
        constant := id
        type := c.type
        value := value.bind Value.scalar? }]
    | none => s.specConstants

/-- Evaluate the next constant. -/
def step (g : Graph) (overrides : Overrides) (s : Specialization) (id : Ident) :
    Traced Specialization := do
  let c ← g.constant id
  let type ← g.type c.type
  let specId := g.annotations.decorationWord? id none Decoration.specId
  match specId.bind overrides.get? with
  | some bytes =>
    let value ← evalOverride id c type bytes
    return s.record g id c specId value true
  | none =>
    let (events, value) := s.eval type c.kind
    events.forM Traced.note
    return s.record g id c specId value false

/-- The overrides that no constant takes. -/
def ignored (g : Graph) (overrides : Overrides) (visits : Visits := {}) : List Word :=
  (visits.overrides.order (.ofList overrides.keys)).filter fun specId =>
    specId ∉ g.specIds.map Prod.snd

/-- Evaluate all constants under overrides. -/
def apply (g : Graph) (overrides : List Override) (visits : Visits := {}) :
    Traced Specialization := do
  let overrides ← Overrides.ofList overrides
  (ignored g overrides visits).forM fun specId => Traced.note (.overrideIgnored specId)
  let s ← g.constants.keys.foldlM (step g overrides) {}
  Traced.note (.constantsEvaluated s.values.size g.constants.size
    (s.specConstants.countP (·.isOverridden)))
  return s

/-! ## Array lengths -/

/-- The length of an array that is held by a constant. -/
def arrayLength (s : Specialization) (g : Graph) (length : Ident) : Except Fault Word := do
  let source ← g.lengthSource length
  match ((s.scalar? length).bind Scalar.natural?).filter (· > 0), source with
  | some n, _ => return n
  | none, .literal _ => throw (.corrupted (.arrayLength length))
  | none, .specialized _ => throw (.specialization (.arrayLength length))

end Specialization

end ShaderReflect
