import OnePass.Compile

/-! # The command line

What the arguments of the compiler ask for, and where its output goes.
-/
namespace OnePass.CommandLine

variable {distance : String → String → Nat} [NameDistance distance]

structure Options where
  source : String
  /-- The output file, if it is not the source with the extension `s`. -/
  output : Option String := none
  /-- Whether every line shows the source position that produced it. -/
  annotate : Bool := false
  /-- How often more detail was asked for. -/
  verbosity : Nat := 0
  deriving DecidableEq, Repr

structure Draft where
  source : Option String := none
  output : Option String := none
  annotate : Bool := false
  verbosity : Nat := 0
  deriving DecidableEq, Repr

inductive UsageError where
  | missingSource
  | missingValue (option : String)
  | repeatedOption (option : String)
  | unexpectedArgument (argument : String)
  deriving DecidableEq, Repr

def UsageError.message : UsageError → String
  | missingSource => "The following required arguments were not provided:\n    <SOURCE>"
  | missingValue option => "The argument '" ++ option ++ " <FILE>' requires a value"
  | repeatedOption option => "The argument '" ++ option ++ "' was provided more than once"
  | unexpectedArgument argument => "Found argument '" ++ argument ++ "' which wasn't expected"

namespace Draft

def setSource (d : Draft) (argument : String) : Except UsageError Draft :=
  match d.source with
  | none => .ok { d with source := some argument }
  | some _ => .error (.unexpectedArgument argument)

def setOutput (d : Draft) (file : String) : Except UsageError Draft :=
  match d.output with
  | none => .ok { d with output := some file }
  | some _ => .error (.repeatedOption "--output")

def setAnnotate (d : Draft) : Except UsageError Draft :=
  if d.annotate then .error (.repeatedOption "--annotate") else .ok { d with annotate := true }

def finish (d : Draft) : Except UsageError Options :=
  match d.source with
  | some source =>
    .ok { source, output := d.output, annotate := d.annotate, verbosity := d.verbosity }
  | none => .error .missingSource

end Draft

def parseFrom (d : Draft) : List String → Except UsageError Options
  | [] => d.finish
  | "-o" :: rest | "--output" :: rest =>
    match rest with
    | file :: rest => do parseFrom (← d.setOutput file) rest
    | [] => .error (.missingValue "--output")
  | "-a" :: rest | "--annotate" :: rest => do parseFrom (← d.setAnnotate) rest
  | "-v" :: rest | "--verbose" :: rest => parseFrom { d with verbosity := d.verbosity + 1 } rest
  | argument :: rest =>
    if argument.startsWith "-" then .error (.unexpectedArgument argument)
    else do parseFrom (← d.setSource argument) rest

def parse (arguments : List String) : Except UsageError Options :=
  parseFrom {} arguments

/-- The characters of a file name without its extension, all back to front. A dot at the very
beginning of a name starts no extension. -/
def dropExtension (reversedName : List Char) : List Char :=
  match reversedName.dropWhile (· ≠ '.') with
  | _ :: c :: stem => c :: stem
  | _ => reversedName

def withExtension (path extension : String) : String :=
  let reversed := path.toList.reverse
  let name := reversed.takeWhile (· ≠ '/')
  let folder := reversed.dropWhile (· ≠ '/')
  String.ofList (dropExtension name ++ folder).reverse ++ "." ++ extension

def Options.target (o : Options) : String :=
  o.output.getD (withExtension o.source "s")

def Options.render (o : Options) (input : Input) : Except Diagnostic String :=
  if o.annotate then (compile (SourceMap Assembly) input).map SourceMap.annotated
  else (compile Assembly input).map Assembly.render

def logLine (e : TraceEvent) : String :=
  let values := ("stage", e.stage) :: e.values
  e.level ++ " " ++ e.message ++
    String.join (values.map fun (key, value) => ", " ++ key ++ ": " ++ value)

/-- The log lines that the options ask for: the important events at one request, all at two. -/
def Options.log (o : Options) (input : Input) : List String :=
  let wanted := fun (e : TraceEvent) => 1 < o.verbosity || (o.verbosity = 1 && e.level = "DEBUG")
  ((trace {} input).filter wanted).map logLine

end OnePass.CommandLine
