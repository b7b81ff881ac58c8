import ShaderReflect.Text.Number
import ShaderReflect.Word

/-!
# Command line options

The command line lists the files to reflect, with options anywhere between them (specification, 6):

* `--ref-all`, `--combine` and `--unique-names` set flags;
* `-o PATH` and `--out-path PATH` name a file for the report;
* `--spec ID=U32` overrides a specialization constant, and may be given several times.

A value may also be joined to its option, by `=` or, for `-o`, directly. After `--` there are only
files. At least one file must be given, and no option but `--spec` twice.

A value that stands on its own must not look like an option, while one that is joined may. The ID
and the value of an override are split at the first `=`, and are numbers of 32 bits. So a constant
that is not four bytes wide cannot be overridden from the command line; `Specialization` finds that
out.

What is wrong with arguments is not told apart: any of it ends the run with `usageStatus` before a
file is read. Options that ask for help or for the version are not modelled, and count as wrong.
-/

namespace ShaderReflect

/-- The override of a specialization constant by a number. -/
structure SpecOption where
  specId : Word
  value : Word
deriving DecidableEq, Repr

/-- What the command line asks for. -/
structure Options where
  /-- The files to reflect. -/
  paths : List String := []
  outPath : Option String := none
  allResources : Bool := false
  combineSamplers : Bool := false
  uniqueNames : Bool := false
  specs : List SpecOption := []
deriving DecidableEq, Repr

namespace Options

/-- The number that a text stands for. -/
def word? (text : List Char) : Option Word := (Text.readBelow? 0x100000000 text).map UInt32.ofNat

/-- The override that a text stands for: the first `=` is between ID and value. -/
def spec? (text : List Char) : Option SpecOption :=
  match text.span (· ≠ '=') with
  | (id, '=' :: value) => do return { specId := ← word? id, value := ← word? value }
  | _ => none

/-- Options that are given by name. -/
inductive Name
  | refAll
  | combine
  | uniqueNames
  | outPath
  | spec
deriving DecidableEq, Repr

/-- The option with a long name. -/
def Name.ofLong? : List Char → Option Name
  | name =>
    if name = "ref-all".toList then some .refAll
    else if name = "combine".toList then some .combine
    else if name = "unique-names".toList then some .uniqueNames
    else if name = "out-path".toList then some .outPath
    else if name = "spec".toList then some .spec
    else none

/-- Whether an option has a value. -/
def Name.hasValue : Name → Bool
  | .outPath | .spec => true
  | _ => false

/-- What an argument says, before its place among others is looked at. -/
inductive Argument
  | path (text : String)
  /-- An option, with the value that is joined to it. -/
  | option (name : Name) (joined : Option (List Char))
  /-- The end of the options. -/
  | stop
  /-- An option that is not known. -/
  | unknown
deriving DecidableEq, Repr

/-- What follows the `-` of an option with a short name. -/
def shortArgument : List Char → Argument
  | ['o'] => .option .outPath none
  | 'o' :: '=' :: value => .option .outPath (some value)
  | 'o' :: value => .option .outPath (some value)
  | _ => .unknown

/-- What follows the `--` of an option with a long name. -/
def longArgument (text : List Char) : Argument :=
  let (name, rest) := text.span (· ≠ '=')
  match Name.ofLong? name with
  | some option => .option option (if rest.isEmpty then none else some rest.tail)
  | none => .unknown

/-- What an argument says. A lone `-` is a path. -/
def Argument.ofString (text : String) : Argument :=
  match text.toList with
  | ['-'] => .path text
  | ['-', '-'] => .stop
  | '-' :: '-' :: rest => longArgument rest
  | '-' :: rest => shortArgument rest
  | _ => .path text

/-- Set a flag that must not be set yet. -/
def setFlag (o : Options) : Name → Option Options
  | .refAll => if o.allResources then none else some { o with allResources := true }
  | .combine => if o.combineSamplers then none else some { o with combineSamplers := true }
  | .uniqueNames => if o.uniqueNames then none else some { o with uniqueNames := true }
  | _ => none

/-- Give a value to an option. -/
def setValue (o : Options) (name : Name) (value : List Char) : Option Options :=
  match name with
  | .outPath =>
    if o.outPath.isSome then none else some { o with outPath := some (String.ofList value) }
  | .spec => (spec? value).map fun s => { o with specs := o.specs ++ [s] }
  | _ => none

/-- Take arguments in order; nothing if one of them is wrong. -/
def addAll (o : Options) : List String → Option Options
  | [] => some o
  | text :: rest =>
    match Argument.ofString text with
    | .path path => addAll { o with paths := o.paths ++ [path] } rest
    | .stop => some { o with paths := o.paths ++ rest }
    | .unknown => none
    | .option name (some value) => (o.setValue name value).bind (·.addAll rest)
    | .option name none =>
      if name.hasValue then
        match rest with
        | [] => none
        | value :: rest =>
          match Argument.ofString value with
          | .path value => (o.setValue name value.toList).bind (·.addAll rest)
          | _ => none
      else (o.setFlag name).bind (·.addAll rest)

/-- What the arguments ask for; nothing if one of them is wrong or no file is given. -/
def ofArguments? (args : List String) : Option Options :=
  (({} : Options).addAll args).filter fun o => !o.paths.isEmpty

end Options

end ShaderReflect
