import ScaleCalls.Files.Fault

/-!
# File trees

What lies at and below a place: a file, a device or a directory with its entries.
A location is the list of names on the way down from the top of a tree.

## Main definitions

- `FileTree` — the trees
- `FileTree.get?`, `FileTree.put` — the tree at a location, and another one in its place
- `FileTree.child?` — the entry of a directory, found the way the system looks it up
- `FileTree.files` — the files of a tree

## Design notes

A directory whose content the system makes up takes no new entries, and to ask for a
name in it fails as if something were missing. Such a directory is `sealed`; nothing
in it is of interest here.
-/

namespace ScaleCalls

/-- Something other than a file that can be written like one. There is nothing to read
from a device. -/
inductive Device where
  /-- What is written is dropped. -/
  | null
  /-- There is never room. -/
  | full
  /-- What is written is printed. -/
  | output
  deriving Repr, DecidableEq

/-- What lies at a place. -/
inductive FileTree where
  | file (text : String)
  | device (device : Device)
  /-- A directory that takes no new entries. -/
  | sealed
  | directory (entries : List (String × FileTree))
  deriving Repr, BEq

/-- The names on the way down from the top of a tree. -/
abbrev Location := List String

namespace FileTree

def maxNameSize : Nat := 255

def empty : FileTree := .directory []

def isDirectory : FileTree → Bool
  | sealed | directory _ => true
  | file _ | device _ => false

/-- The entries of a directory; nothing else has any. -/
def entries : FileTree → List (String × FileTree)
  | directory entries => entries
  | file _ | device _ | sealed => []

def get? (tree : FileTree) : Location → Option FileTree
  | [] => some tree
  | name :: rest => (tree.entries.lookup name).bind (get? · rest)

def putEntry (entries : List (String × FileTree)) (name : String) (tree : FileTree) :
    List (String × FileTree) :=
  match entries with
  | [] => [(name, tree)]
  | (n, t) :: rest => if n = name then (n, tree) :: rest else (n, t) :: putEntry rest name tree

/-- The tree with another tree at a location; missing directories above it are made. -/
def put (tree new : FileTree) : Location → FileTree
  | [] => new
  | name :: rest =>
    directory (putEntry tree.entries name
      (put ((tree.entries.lookup name).getD empty) new rest))

/-- What goes by a name in a directory. Nothing means that the name is free. -/
def child? (tree : FileTree) (name : String) : Except FileFault (Option FileTree) :=
  if !tree.isDirectory then .error .notADirectory
  else if maxNameSize < name.utf8ByteSize then .error .nameTooLong
  else
    match tree with
    | directory entries => .ok (entries.lookup name)
    | file _ | device _ | sealed => .error .notFound

mutual

def files : FileTree → List (Location × String)
  | file text => [([], text)]
  | directory entries => filesOf entries
  | device _ | sealed => []

/-- The files of several entries, with their locations. -/
def filesOf : List (String × FileTree) → List (Location × String)
  | [] => []
  | (name, tree) :: rest => (files tree).map (fun f => (name :: f.1, f.2)) ++ filesOf rest

end

theorem lookup_putEntry (entries : List (String × FileTree)) (name n : String)
    (tree : FileTree) :
    (putEntry entries name tree).lookup n = if n = name then some tree else entries.lookup n := by
  induction entries with
  | nil =>
    by_cases hn : n = name
    · simp [putEntry, hn]
    · simp [putEntry, List.lookup_cons, hn, beq_false_of_ne hn]
  | cons e rest ih =>
    obtain ⟨m, t⟩ := e
    rw [putEntry]
    split
    · next hm =>
      subst hm
      by_cases hn : n = m
      · simp [hn]
      · simp [List.lookup_cons, hn, beq_false_of_ne hn]
    · next hm =>
      by_cases hn : n = m
      · subst hn
        simp [hm]
      · simp [List.lookup_cons, beq_false_of_ne hn, ih]

/-- What is put at a location is found there. -/
theorem get?_put (tree new : FileTree) (location : Location) :
    (tree.put new location).get? location = some new := by
  induction location generalizing tree with
  | nil => rfl
  | cons name rest ih => simp [put, get?, entries, lookup_putEntry, ih]

end FileTree

end ScaleCalls
