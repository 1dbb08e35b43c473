import ScaleCalls.Files.Path
import ScaleCalls.Files.Tree

/-!
# The file system

The tree of all files, the working directory and what has been printed, with what
reading, writing and making directories by path do to them.

A path is followed piece by piece, from the root or from the working directory on. A
dot stays where it is, two dots go back, and either needs a directory to stand in, as
does a slash. The last name of a path may be free.

## Main definitions

- `FileSystem` — the state
- `FileSystem.follow` — the way along a path
- `FileSystem.read`, `FileSystem.write` — texts by path
- `FileSystem.makeDirectory`, `FileSystem.makeDirectories`
- `FileSystem.changes` — the files that are new or changed

## Design notes

A way keeps the trees that it has passed, so going back needs no second search. The
parent of the root is the root itself.
-/

namespace ScaleCalls

/-- The files, the working directory and what has been printed. -/
structure FileSystem where
  root : FileTree
  working : Location
  printed : String

namespace FileSystem

def devices : List (String × FileTree) :=
  [("full", .device .full), ("null", .device .null), ("stderr", .device .null),
    ("stdin", .device .null), ("stdout", .device .output)]

/-- A system with some files in its working directory, which lies two steps below the
root. -/
def ofFiles (files : List (String × String)) : FileSystem :=
  let working := files.foldl (fun tree f => tree.put (.file f.2) (Path.names f.1)) .empty
  { root := .directory
      [("dev", .directory devices), ("proc", .sealed), ("tmp", .directory [("work", working)])]
    working := ["tmp", "work"]
    printed := "" }

def print (system : FileSystem) (text : String) : FileSystem :=
  { system with printed := system.printed ++ text }

/-! ## Following a path -/

/-- The names on the way from the root and the trees that they lead to, the last one
first. -/
abbrev Way := List (String × FileTree)

def Way.tree (way : Way) (root : FileTree) : FileTree := (way.head?.map Prod.snd).getD root

/-- The location of a name in the directory that a way leads to. -/
def Way.location (way : Way) (name : String) : Location := (name :: way.map Prod.fst).reverse

/-- A piece that names nothing new. -/
def isDots (piece : String) : Bool := piece == "" || piece == "." || piece == ".."

def step (root : FileTree) (way : Way) (piece : String) : Except FileFault Way :=
  if !(way.tree root).isDirectory then .error .notADirectory
  else if isDots piece then .ok (if piece = ".." then way.drop 1 else way)
  else
    match (way.tree root).child? piece with
    | .ok (some tree) => .ok ((piece, tree) :: way)
    | .ok none => .error .notFound
    | .error fault => .error fault

def maxPathSize : Nat := 4095

def checkPath (path : String) : Except FileFault Unit :=
  if path.toList.contains (Char.ofNat 0) then .error .invalidName
  else if path.isEmpty then .error .notFound
  else if maxPathSize < path.utf8ByteSize then .error .nameTooLong
  else .ok ()

def follow (system : FileSystem) (path : String) (pieces : List String) : Except FileFault Way :=
  ((if Path.isAbsolute path then [] else system.working) ++ pieces).foldlM (step system.root) []

def lookup (system : FileSystem) (path : String) : Except FileFault FileTree := do
  checkPath path
  return (← system.follow path (Path.pieces path)).tree system.root

def isDirectory (system : FileSystem) (path : String) : Bool :=
  match system.lookup path with
  | .ok tree => tree.isDirectory
  | .error _ => false

/-- The way to the directory in which the last name of a path stands, and this name. -/
def above (system : FileSystem) (path : String) : Except FileFault (Way × String) := do
  checkPath path
  let pieces := Path.pieces (Path.withoutSlashes path)
  let way ← system.follow path pieces.dropLast
  if (way.tree system.root).isDirectory then return (way, (pieces.getLast?).getD "")
  else throw .notADirectory

/-- The system with a tree under a name in the directory that a way leads to. -/
def put (system : FileSystem) (way : Way) (name : String) (tree : FileTree) : FileSystem :=
  { system with root := system.root.put tree (way.location name) }

/-! ## Reading and writing -/

def read (system : FileSystem) (path : String) : Except FileFault String := do
  match ← system.lookup path with
  | .file text => return text
  | .device _ => return ""
  | .sealed | .directory _ => throw .isADirectory

def writeDevice (system : FileSystem) (text : String) : Device → Except FileFault FileSystem
  | .null => .ok system
  | .full => .error .noSpace
  | .output => .ok (system.print text)

/-- The system with a text at a path. The path may not be that of a directory, whether
there is one or not. -/
def write (system : FileSystem) (path text : String) : Except FileFault FileSystem := do
  let (way, name) ← system.above path
  if isDots name || Path.endsInSlash path then throw .isADirectory
  match ← (way.tree system.root).child? name with
  | none | some (.file _) => return system.put way name (.file text)
  | some (.device device) => system.writeDevice text device
  | some .sealed | some (.directory _) => throw .isADirectory

/-! ## Making directories -/

def makeDirectory (system : FileSystem) (path : String) : Except FileFault FileSystem := do
  let (way, name) ← system.above path
  if isDots name then throw .alreadyExists
  match ← (way.tree system.root).child? name with
  | none => return system.put way name .empty
  | some _ => throw .alreadyExists

/-- The system with a directory at a path, new or not. -/
def ensureDirectory (system : FileSystem) (path : String) : Except FileFault FileSystem :=
  match system.makeDirectory path with
  | .ok made => .ok made
  | .error fault => if system.isDirectory path then .ok system else .error fault

/-- The system with a directory at the path of some parts, given with the last one
first, and at all paths that it begins with. These are made only when they are missed. -/
def makeAlong (system : FileSystem) : List String → Except FileFault FileSystem
  | [] => .ok system
  | part :: before =>
    let path := Path.ofComponents (part :: before).reverse
    match system.ensureDirectory path with
    | .error .notFound => do (← system.makeAlong before).ensureDirectory path
    | result => result

def makeDirectories (system : FileSystem) (path : String) : Except FileFault FileSystem :=
  if path.isEmpty then .ok system
  else
    match system.ensureDirectory path with
    | .error .notFound => do
      (← system.makeAlong ((Path.components path).reverse.drop 1)).ensureDirectory path
    | result => result

/-! ## What has changed -/

def text? (system : FileSystem) (location : Location) : Option String :=
  match system.root.get? (system.working ++ location) with
  | some (.file text) => some text
  | _ => none

/-- The files in the working directory that are new or changed, with their paths. -/
def changes (before after : FileSystem) : List (String × String) :=
  let files := ((after.root.get? after.working).map FileTree.files).getD []
  (files.filter fun f => before.text? f.1 != some f.2).map fun f =>
    (String.intercalate "/" f.1, f.2)

end FileSystem

end ScaleCalls
