import ScaleCalls.CommandLine.Tool

/-!
# The executable

Carries out the program of the tool on the real file system. Nodes are not asked:
there is no network here.

## Main definitions

- `Program.perform` — carries out a program
-/

namespace ScaleCalls

def FileFault.ofSystem : IO.Error → FileFault
  | .noFileOrDirectory .. => .notFound
  | .alreadyExists .. => .alreadyExists
  | .inappropriateType .. => .notADirectory
  | e => .other (toString e)

def answer {α : Type} (action : IO α) : IO (Except FileFault α) := do
  match ← action.toBaseIO with
  | .ok value => return .ok value
  | .error e => return .error (FileFault.ofSystem e)

def Program.perform {α : Type} : Program α → IO α
  | done value => return value
  | readText path next => do perform (next (← answer (IO.FS.readFile path)))
  | writeText path text next => do perform (next (← answer (IO.FS.writeFile path text)))
  | makeDirectories path next => do perform (next (← answer (IO.FS.createDirAll path)))
  | askNode _ _ next => perform (next (.error noNetwork))
  | print text next => do
    IO.print text
    perform next

end ScaleCalls

def main (arguments : List String) : IO UInt32 := do
  let exit ← (ScaleCalls.Tool.main arguments).perform
  match exit.message with
  | none => pure ()
  | some message => IO.eprintln s!"[ERROR] {message}"
  return exit.code.toUInt32
