import ShaderReflect.Stage.Descriptor

/-!
# Entry points

Everything that a reflection says about an entry point (specification, 3). `τ` is how types are
referred to: by a place in the arena, by a document, or by a type that is written out.

* `EntryPoint.map` changes the way of referring, `EntryPoint.refs` lists the references.
* `EntryPoint.withUniqueNames` gives a name to what has none and makes all names of the entry point
  distinct (specification, 4.6, `gen_unique_names`). The items claim their names in the order in
  which they are reported, descriptors first, then push constants, inputs, outputs and
  specialization constants, from one table; the position of each is its place in its own list.
* `EntryPoint.descriptor?`, `EntryPoint.mode?`: look-ups for clients. Several descriptors may have
  one set and binding, and the first one is found.

A mode is reported with all of its operands. A literal is an unsigned integer of 32 bits; an ID
stands for the value of a constant, if it has one that is a scalar, and is reported with its
specialization ID. Names of structs and members belong to types and are not given here.
-/

namespace ShaderReflect

/-- A block of push constants. -/
structure PushConstant (τ : Type) where
  id : Ident
  name : Option String
  type : τ
  members : List (MemberDesc τ)
  size : Option Nat
deriving DecidableEq, Repr

/-- An input or output of a stage. -/
structure InterfaceVar (τ : Type) where
  id : Ident
  name : Option String
  location : Word
  component : Word
  type : τ
deriving DecidableEq, Repr

/-- A constant that a client can override. -/
structure SpecConstantVar (τ : Type) where
  name : Option String
  specId : Word
  type : τ
  value : Option Scalar
  isOverridden : Bool
deriving DecidableEq, Repr

/-- An operand of an execution mode. -/
structure ModeOperand where
  /-- Absent if the operand is a constant without a scalar value. -/
  value : Option Scalar
  /-- The ID under which the operand can be overridden. -/
  specId : Option Word
deriving DecidableEq, Repr

/-- An execution mode. -/
structure Mode where
  mode : Word
  operands : List ModeOperand
deriving DecidableEq, Repr

/-- The size of a workgroup. -/
structure WorkgroupSize where
  x : Word
  y : Word
  z : Word
deriving DecidableEq, Repr

/-- What is said about an entry point. -/
structure EntryPoint (τ : Type) where
  name : String
  model : ExecutionModel
  function : Ident
  /-- The interface variables as declared. -/
  interface : List Ident
  modes : List Mode
  /-- Present for stages that are dispatched in workgroups of a declared size. -/
  workgroupSize : Option WorkgroupSize
  /-- The resource variables, in ascending order. -/
  resources : List Ident
  /-- Ordered by set, binding and ID. -/
  descriptors : List (Descriptor τ)
  pushConstants : List (PushConstant τ)
  /-- Ordered by location, component and ID. -/
  inputs : List (InterfaceVar τ)
  /-- Ordered by location, component and ID. -/
  outputs : List (InterfaceVar τ)
  specConstants : List (SpecConstantVar τ)
deriving DecidableEq, Repr

/-! ## Referring to types in another way -/

section

variable {τ σ : Type}

/-- A block of push constants, referring to types in another way. -/
def PushConstant.map (f : τ → σ) (p : PushConstant τ) : PushConstant σ :=
  { p with type := f p.type, members := p.members.map (·.map f) }

/-- An interface variable, referring to its type in another way. -/
def InterfaceVar.map (f : τ → σ) (v : InterfaceVar τ) : InterfaceVar σ :=
  { v with type := f v.type }

/-- A constant, referring to its type in another way. -/
def SpecConstantVar.map (f : τ → σ) (c : SpecConstantVar τ) : SpecConstantVar σ :=
  { c with type := f c.type }

/-- An entry point, referring to types in another way. -/
def EntryPoint.map (f : τ → σ) (e : EntryPoint τ) : EntryPoint σ :=
  { e with
    descriptors := e.descriptors.map (·.map f)
    pushConstants := e.pushConstants.map (·.map f)
    inputs := e.inputs.map (·.map f)
    outputs := e.outputs.map (·.map f)
    specConstants := e.specConstants.map (·.map f) }

/-- The types that an entry point refers to. -/
def EntryPoint.refs (e : EntryPoint τ) : List τ :=
  e.descriptors.map (·.type)
    ++ e.pushConstants.flatMap (fun p => p.type :: p.members.map (·.type))
    ++ e.inputs.map (·.type) ++ e.outputs.map (·.type) ++ e.specConstants.map (·.type)

end

/-! ## Unique names -/

namespace EntryPoint

variable {τ : Type}

/-- Give each item the name that it claims; one without a name claims the given one. -/
def nameItems {α : Type} (name : α → Option String) (fallback : α → String)
    (rename : String → α → α) (t : NameTable) (items : List α) : List α × NameTable :=
  let (names, t) := t.claimAll (items.map fun x => (name x).getD (fallback x))
  (names.zipWith rename items, t)

/-- The name of an interface variable without a name. -/
def interfaceName (direction : String) (v : InterfaceVar τ) : String :=
  direction ++ "_loc" ++ toString v.location ++ "_comp" ++ toString v.component

/-- Give names to what has none, and make all names distinct. -/
def withUniqueNames (e : EntryPoint τ) : EntryPoint τ :=
  let (descriptors, t) := nameItems (·.name)
    (fun d => "set" ++ toString d.set ++ "_bind" ++ toString d.binding)
    (fun s d => { d with name := some s }) {} e.descriptors
  let (pushConstants, t) := nameItems (·.name) (fun _ => "push_const")
    (fun s p => { p with name := some s }) t e.pushConstants
  let (inputs, t) := nameItems (·.name) (interfaceName "in")
    (fun s v => { v with name := some s }) t e.inputs
  let (outputs, t) := nameItems (·.name) (interfaceName "out")
    (fun s v => { v with name := some s }) t e.outputs
  let (specConstants, _) := nameItems (·.name) (fun c => "spec_const" ++ toString c.specId)
    (fun s c => { c with name := some s }) t e.specConstants
  { e with descriptors, pushConstants, inputs, outputs, specConstants }

/-! ## Look-ups -/

/-- The descriptor of a set and binding. -/
def descriptor? (e : EntryPoint τ) (set binding : Word) : Option (Descriptor τ) :=
  e.descriptors.find? fun d => d.set = set ∧ d.binding = binding

/-- The first execution mode with a number. -/
def mode? (e : EntryPoint τ) (mode : Word) : Option Mode := e.modes.find? (·.mode = mode)

end EntryPoint

end ShaderReflect
