import ShaderReflect.CommandLine.Folder
import ShaderReflect.CommandLine.Options
import ShaderReflect.Report.EntryPoint

/-!
# Running the command line

Each file is read, decoded, reflected and reported in turn, with one configuration that is given the
words of each file (specification, 6). A file for which one of these fails gives an error line; the
others give the elements of the report, in order. An overflow ends the run, and there is no report.

* `CommandLine.addFile` is what one more file does.
* `CommandLine.run` is what files do one after the other.
* `CommandLine.runUnder` is what files give under some options.
* `CommandLine.perform` is a whole run under some options.
* `CommandLine.execute` is a whole run in a folder.

The exit status is 0 if all files have been reflected, 1 if one of them has not or the report cannot
be written, 2 for wrong arguments and 101 after an overflow. The report is one JSON array and a line
break. It is written once all files are done, also if some have failed, to the file that the options
name or else to the standard output.

The declarations of each file are gone through in orders of its own (`Visits`), so they are a
parameter for each place in the list of files: a file that is given twice may give two different
error lines. Error lines are the only lines of the log that are part of an outcome.
-/

namespace ShaderReflect.CommandLine

/-- The configuration that options ask for. -/
def config (o : Options) : Config where
  allResources := o.allResources
  combineSamplers := o.combineSamplers
  uniqueNames := o.uniqueNames
  overrides := o.specs.map fun s => { specId := s.specId, bytes := ByteOrder.little.bytes s.value }

/-- Why a file gives no element of the report. -/
inductive FileFault
  | unreadable (cause : FileError)
  | undecodable (fault : Fault)
  | unreflectable (fault : Fault)
deriving DecidableEq, Repr

/-- The error line for a file. -/
def FileFault.message (path : String) : FileFault → String
  | .unreadable e => "cannot read '" ++ path ++ "': " ++ e.message
  | .undecodable f => "'" ++ path ++ "' is not spirv: " ++ f.message
  | .unreflectable f => "cannot reflect '" ++ path ++ "': " ++ f.message

/-- The words of a file, or the reason why there are none. -/
def load (read : String → Except FileError (List UInt8)) (path : String) :
    Except FileFault (List Word) :=
  match read path with
  | .error e => .error (.unreadable e)
  | .ok bytes => (wordsOfBytes bytes).mapError .undecodable

/-- What files have given. -/
structure Results where
  /-- The number of files that gave no element. -/
  failures : Nat := 0
  /-- The error lines, in order. -/
  errors : List String := []
  /-- The elements of the report, in order. -/
  elements : List Json := []

/-- One more file that gives no element. -/
def Results.fail (r : Results) (path : String) (f : FileFault) : Results :=
  { r with failures := r.failures + 1, errors := r.errors ++ [f.message path] }

/-- One more element. -/
def Results.add (r : Results) (element : Json) : Results :=
  { r with elements := r.elements ++ [element] }

/-- What the files so far have left. -/
structure Progress where
  /-- The configuration, with the words of the file that was decoded last. -/
  config : Config
  results : Results := {}

/-- What one more file does whose words the configuration has been given. -/
def reflectFile (p : Progress) (path : String) (visits : Visits := {}) :
    Except Overflow Progress :=
  match (p.config.reflect visits).result with
  | .error (.overflow o) => .error o
  | .error (.fault f) => .ok { p with results := p.results.fail path (.unreflectable f) }
  | .ok r => do return { p with results := p.results.add (← Report.fileJson path r) }

/-- What one more file does. -/
def addFile (read : String → Except FileError (List UInt8)) (p : Progress) (path : String)
    (visits : Visits := {}) : Except Overflow Progress :=
  match load read path with
  | .error f => .ok { p with results := p.results.fail path f }
  | .ok words => reflectFile { p with config := { p.config with binary := some words } } path visits

/-- How a run over files ends. -/
inductive Ending
  | finished
  | overflow (cause : Overflow)
deriving DecidableEq, Repr

/-- What files leave one after the other, up to an overflow. The declarations of each file are gone
through in orders of its own. -/
def run (read : String → Except FileError (List UInt8)) (p : Progress) (paths : List String)
    (visits : Nat → Visits := fun _ => {}) : Progress × Ending :=
  match paths with
  | [] => (p, .finished)
  | path :: paths =>
    match addFile read p path (visits 0) with
    | .error o => (p, .overflow o)
    | .ok p => run read p paths fun k => visits (k + 1)

/-- What files give under some options. -/
def runUnder (o : Options) (read : String → Except FileError (List UInt8)) (paths : List String)
    (visits : Nat → Visits := fun _ => {}) : Results × Ending :=
  let (p, ending) := run read { config := config o } paths visits
  (p.results, ending)

/-- The text of a report. -/
def reportText (r : Results) : String := (Json.array r.elements).pretty ++ "\n"

/-- The error line for a report that cannot be written. -/
def unwritableMessage (path : String) (cause : FileError) : String :=
  "cannot write to '" ++ path ++ "': " ++ cause.message

/-- The exit status of a run that was given wrong arguments. -/
def usageStatus : Nat := 2

/-- The exit status of a run that ended with an overflow. -/
def overflowStatus : Nat := 101

/-- The exit status of a run whose report has been written: one if a file failed. -/
def status (r : Results) : Nat := if 0 < r.failures then 1 else 0

/-- Where a run finds its files: what is read under a path, and what writing to a path leaves. -/
structure Files (σ : Type) where
  read : σ → String → Except FileError (List UInt8)
  write : σ → String → List UInt8 → Except FileError σ

/-- What a run leaves behind. -/
structure Outcome (σ : Type) where
  status : Nat
  output : String := ""
  errors : List String := []
  folder : σ

/-- A whole run under some options. -/
def perform {σ : Type} (files : Files σ) (o : Options) (folder : σ)
    (visits : Nat → Visits := fun _ => {}) : Outcome σ :=
  match runUnder o (files.read folder) o.paths visits with
  | (r, .overflow _) => { status := overflowStatus, errors := r.errors, folder }
  | (r, .finished) =>
    match o.outPath with
    | none => { status := status r, output := reportText r, errors := r.errors, folder }
    | some path =>
      match files.write folder path (reportText r).toUTF8.toList with
      | .ok folder => { status := status r, errors := r.errors, folder }
      | .error e => { status := 1, errors := r.errors ++ [unwritableMessage path e], folder }

/-- A whole run in a folder. -/
def execute (args : List String) (folder : Folder) (visits : Nat → Visits := fun _ => {}) :
    Outcome Folder :=
  match Options.ofArguments? args with
  | none => { status := usageStatus, folder }
  | some o => perform { read := Folder.read, write := Folder.write } o folder visits

end ShaderReflect.CommandLine
