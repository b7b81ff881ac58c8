import ShaderReflect.CommandLine.Run

/-!
# The program

Reads the files that the command line names, and writes the report and the error lines. All that is
decided is decided in `CommandLine`: what the arguments ask for by `Options.ofArguments?`, and what
files give by `runUnder`, from contents that have been read before.

The steps of `perform` are repeated here in terms of the operating system, whose failures
`fileError` translates. So nothing about files is proved of this module; it is the thin layer around
a run.
-/

namespace ShaderReflect.Program

open CommandLine

/-- How the program is used. -/
def usage : String :=
  "usage: [--ref-all] [--combine] [--unique-names] [--spec ID=U32]... [-o PATH] PATH..."

/-- A failure of the operating system. -/
def fileError : IO.Error → FileError
  | .noFileOrDirectory _ _ _ => .missing
  | .inappropriateType _ 20 _ => .notDirectory
  | .inappropriateType _ 21 _ => .isDirectory
  | .invalidArgument _ 36 _ => .nameTooLong
  | e => .other (toString e)

/-- The contents of files, or why they cannot be read. -/
def readFiles (paths : List String) : IO (List (String × Except FileError (List UInt8))) :=
  paths.mapM fun (path : String) => do
    try
      let bytes ← IO.FS.readBinFile path
      return (path, .ok bytes.toList)
    catch e =>
      return (path, .error (fileError e))

/-- What was read from a file. -/
def contentOf (files : List (String × Except FileError (List UInt8))) (path : String) :
    Except FileError (List UInt8) :=
  (files.lookup path).getD (.error .missing)

/-- Write the report to where it is to go; the exit status. -/
def deliver (o : Options) (r : Results) : IO Nat := do
  match o.outPath with
  | none =>
    IO.print (reportText r)
    return status r
  | some path =>
    try
      IO.FS.writeFile path (reportText r)
      return status r
    catch e =>
      IO.eprintln (unwritableMessage path (fileError e))
      return 1

/-- Do what the arguments ask for; the exit status. -/
def start (args : List String) : IO Nat := do
  match Options.ofArguments? args with
  | none =>
    IO.eprintln usage
    return usageStatus
  | some o =>
    let files ← readFiles o.paths
    let (r, ending) := runUnder o (contentOf files) o.paths
    r.errors.forM IO.eprintln
    match ending with
    | .overflow cause =>
      IO.eprintln cause.message
      return overflowStatus
    | .finished => deliver o r

end ShaderReflect.Program

/-- The program. -/
def main (args : List String) : IO UInt32 := do
  return UInt32.ofNat (← ShaderReflect.Program.start args)
