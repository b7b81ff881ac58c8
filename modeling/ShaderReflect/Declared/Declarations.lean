import ShaderReflect.Declared.Statement
import ShaderReflect.IdSet
import ShaderReflect.Table

/-!
# The declarations of a binary

Declarations are collected in order, in one pass (specification, 4.2). Each kind of entity has its
table; a function body is collected until it ends. A pointer that is computed from a variable, in
whatever function, counts as that variable from then on.

* `Declarations.add` is what one more declaration does.
* `Declarations.variableOf?` follows an ID to a variable, by itself or through what has been
  derived.

IDs are not shared between constants and variables, and neither between two entities of a kind. That
a type and a constant, or a function and anything else, share an ID is not found out.

What is derived is kept for the whole binary. If an ID is derived twice, the variable that it came
from last counts, and an ID that names a variable is that variable, whatever else it has been
derived from. An ID is followed only if it comes after what it refers to: a variable that is
declared after a function is not touched by it. Function parameters lead nowhere, so that what is
handed to a function counts as touched by the caller.

An image or sampler that leads to no variable is noted under its own ID (`sampledImage`); it is not
among the variables that an entry point reaches, so no pairing comes of it.
-/

namespace ShaderReflect

/-- What a function does to variables and to other functions. -/
structure FunctionBody where
  /-- The variables that it touches, directly or through a derived pointer. -/
  accessed : IdSet := .empty
  callees : IdSet := .empty
  /-- The images that it samples, each with its sampler, in order. -/
  sampled : List (Ident × Ident) := []

/-- The declarations of a binary so far. -/
structure Declarations where
  types : Table Ident TypeDecl := .empty
  forwardPointers : IdSet := .empty
  constants : Table Ident Constant := .empty
  globals : Table Ident Variable := .empty
  functions : Table Ident FunctionBody := .empty
  /-- The results that are derived from variables, latest first. -/
  derived : List (Ident × Ident) := []
  /-- The function whose body is open. -/
  current : Option (Ident × FunctionBody) := none

namespace Declarations

/-- The variable that an ID names or is derived from. -/
def variableOf? (ds : Declarations) (id : Ident) : Option Ident :=
  if ds.globals.contains id then some id else ds.derived.lookup id

/-- Change the open function body. -/
def inBody (ds : Declarations) (f : FunctionBody → FunctionBody) : Except Fault Declarations :=
  match ds.current with
  | some (id, body) => .ok { ds with current := some (id, f body) }
  | none => .error (.corrupted .outsideBody)

/-- Declare a type. -/
def addType (ds : Declarations) (id : Ident) (decl : TypeDecl) : Except Fault Declarations :=
  match ds.types.insertNew? id decl with
  | some types => .ok { ds with types }
  | none => .error (.corrupted (.typeRedefined id))

/-- Declare a constant. -/
def addConstant (ds : Declarations) (id : Ident) (decl : Constant) : Except Fault Declarations :=
  if ds.globals.contains id then .error (.corrupted (.constantRedefined id))
  else match ds.constants.insertNew? id decl with
    | some constants => .ok { ds with constants }
    | none => .error (.corrupted (.constantRedefined id))

/-- Declare a variable. -/
def addVariable (ds : Declarations) (id : Ident) (decl : Variable) : Except Fault Declarations :=
  if ds.constants.contains id then .error (.corrupted (.variableRedefined id))
  else match ds.globals.insertNew? id decl with
    | some globals => .ok { ds with globals }
    | none => .error (.corrupted (.variableRedefined id))

/-- End the open function body. -/
def endFunction (ds : Declarations) : Except Fault Declarations :=
  match ds.current with
  | none => .error (.corrupted .unmatchedFunctionEnd)
  | some (id, body) =>
    match ds.functions.insertNew? id body with
    | some functions => .ok { ds with functions, current := none }
    | none => .error (.corrupted (.functionRedefined id))

/-- The declarations with one more. -/
def add (ds : Declarations) : Declaration → Except Fault Declarations
  | .forwardPointer id => .ok { ds with forwardPointers := ds.forwardPointers.insert id }
  | .type id decl => ds.addType id decl
  | .constant id decl => ds.addConstant id decl
  | .globalVar id decl => ds.addVariable id decl
  | .function id => .ok { ds with current := some (id, {}) }
  | .functionEnd => ds.endFunction
  | .call callee args =>
    ds.inBody fun body => { body with
      callees := body.callees.insert callee
      accessed := body.accessed.insertAll (args.filterMap ds.variableOf?) }
  | .derive result pointer =>
    match ds.variableOf? pointer with
    | none => ds.inBody id
    | some v =>
      { ds with derived := (result, v) :: ds.derived }.inBody fun body =>
        { body with accessed := body.accessed.insert v }
  | .touch pointers =>
    ds.inBody fun body =>
      { body with accessed := body.accessed.insertAll (pointers.filterMap ds.variableOf?) }
  | .sampledImage image sampler =>
    ds.inBody fun body => { body with
      sampled := body.sampled ++
        [((ds.variableOf? image).getD image, (ds.variableOf? sampler).getD sampler)] }

end Declarations

end ShaderReflect
