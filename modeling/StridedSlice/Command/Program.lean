import StridedSlice.Command.Execute
/-!
# StridedSlice.Command.Program

The **program** as a function: what it shows on its two output streams and its exit code,
for given arguments, variables of the environment, and contents of files.
-/

namespace StridedSlice

/-- The variables of the environment that the program reads. -/
structure Environment where
  /-- The setting for the limit on elements, as its bytes. -/
  elements : Option (List UInt8)
  /-- The setting for the limit on operations, as its bytes. -/
  operations : Option (List UInt8)
  /-- The setting for the verbosity of the log. -/
  log : Option String

namespace Environment

/-- The limits that are set. -/
def limits (env : Environment) : Limits := .ofSettings env.elements env.operations

/-- The verbosity that is set. -/
def verbosity (env : Environment) : Verbosity := .ofSetting env.log

end Environment

/-- What a run of the program shows. -/
structure Shown where
  /-- The exit code. -/
  exitCode : UInt32
  /-- Everything on standard output. -/
  stdout : String
  /-- Everything on standard error. -/
  stderr : String
  deriving Repr, DecidableEq

/-- What is shown of a response. -/
def Response.shown (r : Response) (verbosity : Verbosity) : Shown :=
  ⟨r.exitCode, r.stdout, r.stderr verbosity⟩

/-- Carries out the command that the arguments describe. `contents` gives the bytes of a
file. -/
def program (wording : Wording) (env : Environment)
    (contents : String → Except FileError (List UInt8)) (arguments : List String) : Shown :=
  match Command.parse? arguments with
  | none => ⟨2, "", wording.usage arguments⟩
  | some command => (command.execute wording env.limits contents).shown env.verbosity

end StridedSlice
