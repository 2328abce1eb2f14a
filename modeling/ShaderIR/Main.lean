import ShaderIR.CommandLine.Run

/-!
# The program

Reads the configuration file that the command line names, if any, runs the command
line and writes what it says.
-/

open ShaderIR

/-- Run a command line; the exit code tells whether it failed. -/
def main (words : List String) : IO UInt32 := do
  let files : CommandLine.Files ←
    match CommandLine.configPath? words with
    | none => pure (CommandLine.Directory.read [])
    | some path =>
      try
        let text ← IO.FS.readFile path
        pure fun _ => .ok text
      catch _ => pure (CommandLine.Directory.read [])
  let outcome := CommandLine.run files words
  IO.print outcome.out
  match outcome.error with
  | none => return 0
  | some error =>
    IO.eprintln ("xiropt: " ++ error.message)
    return 1
