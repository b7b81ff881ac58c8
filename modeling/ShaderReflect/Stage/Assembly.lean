import ShaderReflect.Stage.EntryPoint

/-!
# Assembling entry points

What is said about an entry point is put together in this order (specification, 4.6): its resource
variables in ascending order, its interface variables as declared, the constants that can be
overridden, its execution modes and its workgroup size. The types that these refer to go into the
arena on the way, so the order decides about their places, and about which fault is found first.

* `Source.addResource`: one resource variable. The type of a block of push constants has to be a
  struct.
* `Source.addInterfaceVar`: one variable of the interface. Without a location it is left out, and
  its type does not go into the arena.
* `Source.specConstantVars`: all constants with a specialization ID, for every entry point alike.
* `Source.workgroupSize`: the size for stages that have workgroups, from the first constant that is
  decorated as the built-in, or else from the first mode that declares one. The built-in has to be a
  composite of three numbers with values; a mode has to have three operands with values.

Afterwards descriptors are put in the order of set, binding and ID, inputs and outputs in that of
location, component and ID. `sortByOrder` is stable, but as no two items share an ID it need not be.
Names are given at the very end, so the numbers in them are those of the order that is reported.
-/

namespace ShaderReflect

/-- Whether a triple of words comes before another one, or is the same, in lexicographic order. -/
def precedes (x y : Word × Word × Word) : Bool :=
  x.1 < y.1 ∨ x.1 = y.1 ∧ (x.2.1 < y.2.1 ∨ x.2.1 = y.2.1 ∧ x.2.2 ≤ y.2.2)

/-- The place of a descriptor among others. -/
def Descriptor.order {τ : Type} (d : Descriptor τ) : Word × Word × Word :=
  (d.set, d.binding, d.id)

/-- The place of an interface variable among others. -/
def InterfaceVar.order {τ : Type} (v : InterfaceVar τ) : Word × Word × Word :=
  (v.location, v.component, v.id)

/-- Items in the order of their triples. -/
def sortByOrder {α : Type} (order : α → Word × Word × Word) (items : List α) : List α :=
  items.mergeSort fun x y => precedes (order x) (order y)

namespace Source

/-! ## Resources -/

/-- The resources collected so far, with the arena that holds their types. -/
structure Resources where
  arena : Arena
  descriptors : List (Descriptor TypeIdx) := []
  pushConstants : List (PushConstant TypeIdx) := []

/-- The push constant block of a variable. -/
def pushConstant (s : Source) (a : Arena) (id : Ident) (v : Variable) :
    Except Stop (PushConstant TypeIdx × Arena) := do
  let (type, a) ← s.materialize a (← s.graph.pointee v)
  match (a.desc? type).bind TypeDesc.members? with
  | some members =>
    return ({ id, type, members, name := s.graph.annotations.name? id none, size := a.size? type },
      a)
  | none => throw (.fault (.corrupted (.pushConstantNotStruct id)))

/-- The resources with that of one more variable. -/
def addResource (s : Source) (pairing : Pairing) (r : Resources) (id : Ident) :
    Traced Resources := do
  let v ← s.graph.globalVar id
  if v.storage = .pushConstant then
    let (p, arena) ← s.pushConstant r.arena id v
    return { r with arena, pushConstants := r.pushConstants ++ [p] }
  else
    let (d?, arena) ← s.descriptor? pairing r.arena id v
    return { r with arena, descriptors := r.descriptors ++ d?.toList }

/-! ## Interfaces and constants -/

/-- The interface variables collected so far, with the arena that holds their types. -/
structure Interface where
  arena : Arena
  inputs : List (InterfaceVar TypeIdx) := []
  outputs : List (InterfaceVar TypeIdx) := []

/-- The interface with one more variable. A variable without a location is a built-in and is left
out. -/
def addInterfaceVar (s : Source) (i : Interface) (id : Ident) : Except Stop Interface := do
  let v ← s.graph.globalVar id
  match s.graph.annotations.decorationWord? id none Decoration.location with
  | none => return i
  | some location =>
    let (type, arena) ← s.materialize i.arena (← s.graph.pointee v)
    let item : InterfaceVar TypeIdx := {
      id, location, type
      name := s.graph.annotations.name? id none
      component := (s.graph.annotations.decorationWord? id none Decoration.component).getD 0 }
    return if v.storage = .input then { i with arena, inputs := i.inputs ++ [item] }
      else { i with arena, outputs := i.outputs ++ [item] }

/-- The interface of an entry point, with the arena that holds its types. -/
def interface (s : Source) (a : Arena) (ids : List Ident) : Except Stop Interface :=
  ids.foldlM s.addInterfaceVar { arena := a }

/-- The constants that can be overridden, with the arena that holds their types. -/
def specConstantVars (s : Source) (a : Arena) :
    List SpecConstant → Except Stop (List (SpecConstantVar TypeIdx) × Arena)
  | [] => return ([], a)
  | c :: cs => do
    let (type, a) ← s.materialize a c.type
    let (rest, a) ← s.specConstantVars a cs
    return ({ c with type } :: rest, a)

/-! ## Execution modes and the workgroup size -/

/-- An execution mode with the values of its operands. -/
def mode (s : Source) (m : ModeDecl) : Mode where
  mode := m.mode
  operands :=
    match m.params with
    | .literals ws => ws.map fun w =>
      { value := some (.int 32 false (BitVec.ofNat 64 w.toNat)), specId := none }
    | .idents ids => ids.map fun id =>
      { value := s.specialization.scalar? id
        specId := s.graph.annotations.decorationWord? id none Decoration.specId }

/-- The workgroup size of three numbers that have values. -/
def sizeOfWords (source : SizeSource) (name : String) :
    List (Option Word) → Except Fault WorkgroupSize
  | [some x, some y, some z] => .ok { x, y, z }
  | _ => .error (.specialization (.workgroupSize source name))

/-- The first constant that is the built-in workgroup size. -/
def workgroupSizeConstant? (g : Graph) : Option Ident :=
  g.constants.keys.find? fun id =>
    g.annotations.decorationWord? id none Decoration.builtIn = some workgroupSizeBuiltIn

/-- The numbers of a constant that is a composite of scalars. -/
def naturalParts (s : Source) (id : Ident) : List (Option Word) :=
  match s.specialization.value? id with
  | some (.composite parts) => parts.map fun v => v.scalar?.bind Scalar.natural?
  | _ => []

/-- The numbers of a workgroup size that an execution mode declares. -/
def modeSize? (s : Source) (m : ModeDecl) : Option (List (Option Word)) :=
  match m.params with
  | .literals ws => if m.mode = localSizeMode then some (ws.map some) else none
  | .idents ids =>
    if m.mode = localSizeIdMode then
      some (ids.map fun id => (s.specialization.scalar? id).bind Scalar.natural?)
    else none

/-- The workgroup size of an entry point: that of the built-in if there is one, else that of the
first execution mode that declares one. -/
def workgroupSize (s : Source) (e : EntryPointDecl) : Except Fault (Option WorkgroupSize) :=
  if !e.model.hasWorkgroups then .ok none
  else match workgroupSizeConstant? s.graph with
    | some id => some <$> sizeOfWords .builtIn e.name (s.naturalParts id)
    | none =>
      match (s.graph.annotations.modesOf e.function).findSome? s.modeSize? with
      | some ws => some <$> sizeOfWords .executionMode e.name ws
      | none => .ok none

/-! ## The whole -/

/-- What is said about an entry point, with the arena that holds its types. -/
def assemble (s : Source) (e : EntryPointDecl) (reach : Reach) (pairing : Pairing) (a : Arena) :
    Traced (EntryPoint TypeIdx × Arena) := do
  let r ← reach.resources.ids.foldlM (s.addResource pairing) { arena := a }
  let i ← s.interface r.arena reach.interface
  let (specConstants, a) ← s.specConstantVars i.arena s.specialization.specConstants
  let workgroupSize ← s.workgroupSize e
  let whole : EntryPoint TypeIdx := {
    name := e.name
    model := e.model
    function := e.function
    interface := e.interface
    modes := (s.graph.annotations.modesOf e.function).map s.mode
    workgroupSize
    resources := reach.resources.ids
    descriptors := sortByOrder Descriptor.order r.descriptors
    pushConstants := r.pushConstants
    inputs := sortByOrder InterfaceVar.order i.inputs
    outputs := sortByOrder InterfaceVar.order i.outputs
    specConstants }
  let named := if s.uniqueNames then whole.withUniqueNames else whole
  Traced.note (.entryPointAssembled named.name named.descriptors.length
    named.pushConstants.length named.inputs.length named.outputs.length)
  return (named, a)

end Source

end ShaderReflect
