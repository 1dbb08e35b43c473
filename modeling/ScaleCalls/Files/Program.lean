import ScaleCalls.Files.System
import ScaleCalls.Metadata.Snapshot

/-!
# Programs that use files

A program is a tree of requests: it reads and writes files, asks a node for its
metadata, or prints, and goes on with the answer. What a program does to a file system
is a function, so programs are reasoned about without running them.

## Main definitions

- `Program` — the requests
- `Program.run` — what a program does to a file system
-/

namespace ScaleCalls

/-- A program that ends with a value. -/
inductive Program (α : Type) where
  | done (value : α)
  | readText (path : String) (next : Except FileFault String → Program α)
  | writeText (path text : String) (next : Except FileFault Unit → Program α)
  | makeDirectories (path : String) (next : Except FileFault Unit → Program α)
  /-- Asks the node at an address, for at most so many seconds. -/
  | askNode (endpoint : String) (seconds : Nat) (next : Except String Snapshot → Program α)
  | print (text : String) (next : Program α)

namespace Program

def andThen {α β : Type} : Program α → (α → Program β) → Program β
  | done value, rest => rest value
  | readText path next, rest => readText path fun answer => (next answer).andThen rest
  | writeText path text next, rest => writeText path text fun answer => (next answer).andThen rest
  | makeDirectories path next, rest =>
    makeDirectories path fun answer => (next answer).andThen rest
  | askNode endpoint seconds next, rest =>
    askNode endpoint seconds fun answer => (next answer).andThen rest
  | print text next, rest => print text (next.andThen rest)

instance : Monad Program where
  pure := done
  bind := andThen

/-- What a program leaves behind. -/
structure Outcome (α : Type) where
  value : α
  system : FileSystem

/-- The answer of a node where there is no network. -/
def noNetwork : String := "no connection to the node"

/-- What a program does to a file system where there is no network. An action that fails
leaves the system as it is. -/
def run {α : Type} (system : FileSystem) : Program α → Outcome α
  | done value => ⟨value, system⟩
  | readText path next => run system (next (system.read path))
  | writeText path text next =>
    match system.write path text with
    | .ok written => run written (next (.ok ()))
    | .error fault => run system (next (.error fault))
  | makeDirectories path next =>
    match system.makeDirectories path with
    | .ok made => run made (next (.ok ()))
    | .error fault => run system (next (.error fault))
  | askNode _ _ next => run system (next (.error noNetwork))
  | print text next => run (system.print text) next

/-- The second of two programs goes on where the first one ends. -/
theorem run_andThen {α β : Type} (system : FileSystem) (program : Program α)
    (next : α → Program β) : (program.andThen next).run system =
      (next (program.run system).value).run (program.run system).system := by
  induction program generalizing system with
  | done value => rfl
  | readText path rest ih => exact ih _ system
  | writeText path text rest ih =>
    rw [andThen, run, run]
    cases system.write path text with
    | ok written => exact ih _ written
    | error fault => exact ih _ system
  | makeDirectories path rest ih =>
    rw [andThen, run, run]
    cases system.makeDirectories path with
    | ok made => exact ih _ made
    | error fault => exact ih _ system
  | askNode endpoint seconds rest ih => exact ih _ system
  | print text rest ih => exact ih (system.print text)

end Program

end ScaleCalls
