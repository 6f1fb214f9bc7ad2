import StridedSlice.Command.Program
/-!
# StridedSlice.Main

The program in the world: it reads settings and the file that a command names, and prints
what `program` shows, without the texts that others choose.
-/

namespace StridedSlice

/-- The reason why a file could not be read. -/
def FileError.ofError (e : IO.Error) : FileError :=
  match e with
  | .noFileOrDirectory _ _ _ => .notFound
  | .inappropriateType _ 21 _ => .isDirectory
  | .inappropriateType _ number reason => .other reason number.toNat
  | .permissionDenied _ number reason => .other reason number.toNat
  | e => .other e.toString 0

/-- Reads the bytes of a file. -/
def readContents (path : String) : IO (Except FileError (List UInt8)) := do
  try
    let bytes ← IO.FS.readBinFile path
    return .ok bytes.toList
  catch e =>
    return .error (.ofError e)

/-- The value of a variable of the environment. -/
def setting (name : String) : IO (Option (List UInt8)) := do
  return (← IO.getEnv name).map Text.toBytes

/-- The variables that the program reads. -/
def readEnvironment : IO Environment := do
  return {
    elements := ← setting Limits.elementsVariable
    operations := ← setting Limits.operationsVariable
    log := ← IO.getEnv Verbosity.settingVariable }

/-- Runs the program on its arguments. -/
def runProgram (arguments : List String) : IO UInt32 := do
  let env ← readEnvironment
  let contents ←
    match (Command.parse? arguments).bind Command.file? with
    | none => pure (.error .notFound)
    | some path => readContents path
  let shown := program .plain env (fun _ => contents) arguments
  IO.eprint shown.stderr
  IO.print shown.stdout
  return shown.exitCode

end StridedSlice

/-- The program. -/
def main (arguments : List String) : IO UInt32 := StridedSlice.runProgram arguments
