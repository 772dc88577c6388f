import OnePass.CommandLine

/-! # The compiler as a program

Reads a program file, compiles it and writes the assembly beside it.
-/
namespace OnePass.CommandLine

def run (o : Options) : IO UInt32 := do
  let start ← IO.monoMsNow
  let data ← IO.FS.readBinFile o.source
  let input := Input.ofReads [.bytes data.toList]
  if 0 < o.verbosity then
    for line in o.log input do
      IO.eprintln line
  match o.render input with
  | .error d =>
    IO.eprintln ("Compiler Error: " ++ d.message)
    return 1
  | .ok text =>
    IO.FS.writeFile o.target text
    let elapsed := (← IO.monoMsNow) - start
    IO.println ("Compiled " ++ o.source ++ " in " ++ toString elapsed ++ "ms")
    return 0

end OnePass.CommandLine

open OnePass.CommandLine in
def main (arguments : List String) : IO UInt32 := do
  match parse arguments with
  | .error e =>
    IO.eprintln ("error: " ++ e.message)
    return 1
  | .ok o =>
    try run o
    catch e =>
      IO.eprintln ("IO error: " ++ toString e)
      return 1
