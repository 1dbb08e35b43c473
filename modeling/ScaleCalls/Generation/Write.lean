import ScaleCalls.Files.Program
import ScaleCalls.Generation.Run

/-!
# Writing generated files

## Main definitions

- `Generation.writeAll` — writes all files of a generation into a directory
-/

namespace ScaleCalls

/-- Writes files into a directory, one after the other; gives their paths. -/
def GeneratedFile.writeAll (directory : String) :
    List GeneratedFile → ExceptT FileFault Program (List String)
  | [] => return []
  | file :: files => do
    let path := Path.join directory file.path
    ExceptT.mk (.writeText path file.contents .done)
    return path :: (← writeAll directory files)

/-- Writes all files of a generation into a directory, which is made if need be; gives
their paths. -/
def Generation.writeAll (generation : Generation) (directory : String) :
    ExceptT FileFault Program (List String) := do
  ExceptT.mk (.makeDirectories directory .done)
  GeneratedFile.writeAll directory generation.files

end ScaleCalls
