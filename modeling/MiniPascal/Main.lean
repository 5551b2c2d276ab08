import MiniPascal.Command

/-!
# The program

Reads the files that the command names, and writes the outcome of the command.
-/

namespace MiniPascal

/-- The fault behind an error of the system. -/
def ReadFault.ofSystem : IO.Error → ReadFault
  | .noFileOrDirectory .. => .missing
  | .inappropriateType _ code _ => if code = 21 then .isDirectory else .notDirectory
  | e => .other (toString e)

/-- Reads the text of a file of the system. -/
def readSystem (path : String) : IO (Except ReadFault String) := do
  match ← (IO.FS.readBinFile path).toBaseIO with
  | .ok bytes => return readText bytes
  | .error e => return .error (.ofSystem e)

/-- What is written where the arguments name no command. -/
def usage : String :=
  "Usage: pascheck check FILE | tokens FILE | categories | --version   [-d DICTIONARY] [--no-color]\n"

/-- The outcome of the arguments. -/
def runArguments (arguments : List String) : IO Outcome := do
  match Command.ofArguments? arguments with
  | none => return ⟨2, "", usage⟩
  | some command =>
    let texts ← command.paths.mapM fun path => return (path, ← readSystem path)
    return command.run fun path => (texts.lookup path).getD (.error .missing)

end MiniPascal

/-- Runs the command of the arguments. -/
def main (arguments : List String) : IO UInt32 := do
  let outcome ← MiniPascal.runArguments arguments
  IO.print outcome.output
  IO.eprint outcome.errors
  return outcome.code.toUInt32
