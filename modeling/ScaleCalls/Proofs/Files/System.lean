import Mathlib.Data.List.Basic
import ScaleCalls.Files.System
import ScaleCalls.Proofs.Files.Path
import ScaleCalls.Proofs.Outcome

/-!
# What writing a file keeps

A file is put at a place that is free or has a file already, in a directory that is
there. All directories stay then, and so does what lies at any other place. Paths
are followed through directories alone, so a path leads to the same place as before.

## Main definitions

- `FileTree.Grown` — a tree that has everything of another one, of the same kind
- `FileSystem.LeadsTo` — the place to which a path leads, whether it is free or not
- `FileSystem.Written` — a text was written to a place and nowhere else

## Main statements

- `FileTree.get?_put_of_ne` — what lies at other places
- `FileSystem.LeadsTo.grown` — paths lead where they led before
- `FileSystem.exists_written` — what a write does, and what it keeps
-/

namespace ScaleCalls

namespace FileTree

variable {tree old new t : FileTree} {above : Location} {location : Location} {name text : String}
  {es : List (String × FileTree)}

theorem get?_append (tree : FileTree) (l m : Location) :
    tree.get? (l ++ m) = (tree.get? l).bind fun t => t.get? m := by
  induction l generalizing tree with
  | nil => rfl
  | cons name l ih =>
    rw [List.cons_append, get?, get?]
    cases tree.entries.lookup name with
    | none => rfl
    | some t => exact ih t

theorem get?_singleton (tree : FileTree) (name : String) :
    tree.get? [name] = tree.entries.lookup name := by
  rw [get?]
  cases tree.entries.lookup name <;> rfl

/-- Only directories have entries. -/
theorem eq_directory_of_lookup (h : tree.entries.lookup name = some t) :
    tree = .directory tree.entries := by
  cases tree with
  | directory => rfl
  | _ => cases h

/-- A file may be put here: in a directory, at a free place or over another file. -/
def Room (tree : FileTree) (above : Location) (name : String) : Prop :=
  ∃ es, tree.get? above = some (.directory es) ∧
    ∀ t, es.lookup name = some t → ∃ text, t = .file text

/-- Trees of one kind: two directories, or two that are none. -/
inductive Alike : FileTree → FileTree → Prop
  | directory (es es' : List (String × FileTree)) : Alike (.directory es) (.directory es')
  | sealed : Alike .sealed .sealed
  | leaf {t t' : FileTree} (h : t.isDirectory = false) (h' : t'.isDirectory = false) : Alike t t'

theorem Alike.refl (t : FileTree) : Alike t t := by
  cases t with
  | directory es => exact .directory es es
  | sealed => exact .sealed
  | _ => exact .leaf rfl rfl

theorem Alike.isDirectory_eq {t t' : FileTree} (h : Alike t t') :
    t.isDirectory = t'.isDirectory := by
  cases h with
  | leaf h h' => rw [h, h']
  | _ => rfl

/-- A tree that has everything of another one, of the same kind at every place. -/
def Grown (old new : FileTree) : Prop :=
  ∀ location t, old.get? location = some t → ∃ t', new.get? location = some t' ∧ Alike t t'

theorem Grown.refl (tree : FileTree) : Grown tree tree := fun _ t h => ⟨t, h, .refl t⟩

/-- Where a file is put, all else stays: directories are directories still, and what is
none is as it was. -/
theorem get?_put_of_ne (hroom : tree.Room above name) (ht : tree.get? location = some t)
    (hne : location ≠ above ++ [name]) :
    ∃ t', (tree.put (.file text) (above ++ [name])).get? location = some t' ∧
      Alike t t' ∧ (t.isDirectory = false → t' = t) := by
  obtain ⟨es, habove, hfree⟩ := hroom
  induction above generalizing tree location with
  | nil =>
    cases habove
    cases location with
    | nil => cases ht; exact ⟨_, rfl, .directory _ _, fun h => by cases h⟩
    | cons m rest =>
      rw [get?] at ht
      obtain ⟨child, hchild, hrest⟩ := Option.bind_eq_some_iff.1 ht
      by_cases hm : m = name
      · subst hm
        -- below a file there is nothing
        obtain ⟨old, rfl⟩ := hfree child hchild
        cases rest with
        | nil => exact absurd rfl hne
        | cons => cases hrest
      · refine ⟨t, ?_, .refl t, fun _ => rfl⟩
        rw [List.nil_append, put, get?, entries, lookup_putEntry, if_neg hm]
        exact ht
  | cons d above ih =>
    rw [get?] at habove
    obtain ⟨child, hchild, hbelow⟩ := Option.bind_eq_some_iff.1 habove
    rw [List.cons_append, put, hchild, Option.getD_some]
    cases location with
    | nil =>
      cases ht
      rw [eq_directory_of_lookup hchild]
      exact ⟨_, rfl, .directory _ _, fun h => by cases h⟩
    | cons m rest =>
      rw [get?] at ht
      obtain ⟨below, hm, hrest⟩ := Option.bind_eq_some_iff.1 ht
      rw [get?, entries, lookup_putEntry]
      by_cases hd : m = d
      · subst hd
        obtain rfl : child = below := Option.some.inj (hchild.symm.trans hm)
        rw [if_pos rfl]
        exact ih hrest (fun heq => hne (congrArg (m :: ·) heq)) hbelow
      · rw [if_neg hd, hm]
        exact ⟨t, hrest, .refl t, fun _ => rfl⟩

theorem grown_put (hroom : tree.Room above name) :
    Grown tree (tree.put (.file text) (above ++ [name])) := by
  intro location t ht
  by_cases hsame : location = above ++ [name]
  · subst hsame
    refine ⟨_, get?_put _ _ _, ?_⟩
    obtain ⟨es, habove, hfree⟩ := hroom
    rw [get?_append, habove, Option.bind_some, get?_singleton] at ht
    obtain ⟨old, rfl⟩ := hfree t ht
    exact .leaf rfl rfl
  · obtain ⟨t', ht', halike, -⟩ := get?_put_of_ne hroom ht hsame
    exact ⟨t', ht', halike⟩

end FileTree

namespace FileSystem

variable {system written after : FileSystem} {root root' : FileTree} {way way' next : Way}
  {path text piece name : String} {pieces : List String} {place : Location} {tree : FileTree}

/-! ## Ways -/

/-- The names on a way, the first one first. -/
def Way.names (way : Way) : Location := (way.map Prod.fst).reverse

/-- A way that a tree has: each tree on it is an entry of the one before it. -/
inductive Way.Within (root : FileTree) : Way → Prop
  | nil : Way.Within root []
  | cons {way : Way} {name : String} {tree : FileTree} (hway : Way.Within root way)
      (hname : (way.tree root).entries.lookup name = some tree) :
      Way.Within root ((name, tree) :: way)

theorem Way.location_eq (way : Way) (name : String) : way.location name = way.names ++ [name] :=
  List.reverse_cons

theorem Way.Within.get?_names (h : way.Within root) :
    root.get? way.names = some (way.tree root) := by
  induction h with
  | nil => rfl
  | @cons way name tree _ hname ih =>
    rw [Way.names, List.map_cons, List.reverse_cons, FileTree.get?_append, ← Way.names, ih,
      Option.bind_some, FileTree.get?_singleton, hname]
    rfl

theorem Way.Within.drop (h : way.Within root) : Way.Within root (way.drop 1) := by
  cases h with
  | nil => exact .nil
  | cons hway _ => exact hway

theorem child?_eq_ok {entry : Option FileTree} (h : tree.child? name = .ok entry) :
    ¬ FileTree.maxNameSize < name.utf8ByteSize ∧
      ∃ es, tree = .directory es ∧ es.lookup name = entry := by
  unfold FileTree.child? at h
  split at h
  · cases h
  · split at h
    · cases h
    · rename_i hsize
      cases tree with
      | directory es => exact ⟨hsize, es, rfl, Except.ok.inj h⟩
      | _ => cases h

theorem child?_eq_some (h : tree.child? name = .ok (some root)) :
    tree.entries.lookup name = some root := by
  obtain ⟨-, es, rfl, hes⟩ := child?_eq_ok h
  exact hes

theorem child?_of_lookup (hsize : ¬ FileTree.maxNameSize < name.utf8ByteSize)
    (h : tree.entries.lookup name = some root) : tree.child? name = .ok (some root) := by
  unfold FileTree.child?
  rw [FileTree.eq_directory_of_lookup h, if_neg hsize]
  exact congrArg Except.ok h

/-- What a step can do: it stays, it goes back, or it goes down to an entry. -/
theorem step_eq_ok (h : step root way piece = .ok next) :
    (way.tree root).isDirectory ∧
      ((isDots piece = true ∧ next = if piece = ".." then way.drop 1 else way) ∨
        (isDots piece = false ∧ ∃ tree, (way.tree root).child? piece = .ok (some tree) ∧
          next = (piece, tree) :: way)) := by
  unfold step at h
  cases hdir : (way.tree root).isDirectory with
  | false => rw [hdir] at h; cases h
  | true =>
    rw [hdir] at h
    cases hdots : isDots piece with
    | true =>
      rw [hdots] at h
      exact ⟨rfl, .inl ⟨rfl, (Except.ok.inj h).symm⟩⟩
    | false =>
      rw [hdots] at h
      refine ⟨rfl, .inr ⟨rfl, ?_⟩⟩
      cases hchild : (way.tree root).child? piece with
      | error fault => rw [hchild] at h; cases h
      | ok entry =>
        cases entry with
        | none => rw [hchild] at h; cases h
        | some tree => rw [hchild] at h; exact ⟨tree, rfl, (Except.ok.inj h).symm⟩

theorem Way.Within.step (hway : way.Within root) (h : step root way piece = .ok next) :
    next.Within root := by
  obtain ⟨-, ⟨-, rfl⟩ | ⟨-, tree, hchild, rfl⟩⟩ := step_eq_ok h
  · split
    · exact hway.drop
    · exact hway
  · exact .cons hway (child?_eq_some hchild)

theorem Way.Within.foldlM (hway : way.Within root)
    (h : pieces.foldlM (FileSystem.step root) way = .ok next) : next.Within root := by
  induction pieces generalizing way with
  | nil => cases h; exact hway
  | cons piece pieces ih =>
    rw [List.foldlM_cons] at h
    obtain ⟨first, hfirst, hrest⟩ := bind_eq_ok.1 h
    exact ih (hway.step hfirst) hrest

theorem within_follow (h : system.follow path pieces = .ok way) : way.Within system.root :=
  Way.Within.nil.foldlM h

/-- A grown tree has a way with the same names. -/
structure SameWay (root root' : FileTree) (way way' : Way) : Prop where
  within : way.Within root
  within' : way'.Within root'
  names : way.map Prod.fst = way'.map Prod.fst

theorem SameWay.alike (h : SameWay root root' way way') (hgrown : FileTree.Grown root root') :
    FileTree.Alike (way.tree root) (way'.tree root') := by
  obtain ⟨t', ht', halike⟩ := hgrown _ _ h.within.get?_names
  have hnames : way.names = way'.names := congrArg List.reverse h.names
  rw [hnames, h.within'.get?_names] at ht'
  rwa [Option.some.inj ht']

/-- An entry of a directory is still there in a grown tree. -/
theorem SameWay.child? (h : SameWay root root' way way') (hgrown : FileTree.Grown root root')
    (hchild : (way.tree root).child? name = .ok (some tree)) :
    ∃ tree', (way'.tree root').child? name = .ok (some tree') ∧ FileTree.Alike tree tree' := by
  have hlookup := child?_eq_some hchild
  have hthere : root.get? (way.names ++ [name]) = some tree := by
    rw [FileTree.get?_append, h.within.get?_names, Option.bind_some, FileTree.get?_singleton,
      hlookup]
  obtain ⟨tree', htree', hsame⟩ := hgrown _ _ hthere
  have hnames : way.names = way'.names := congrArg List.reverse h.names
  rw [hnames, FileTree.get?_append, h.within'.get?_names, Option.bind_some,
    FileTree.get?_singleton] at htree'
  exact ⟨tree', child?_of_lookup (child?_eq_ok hchild).1 htree', hsame⟩

theorem SameWay.step (h : SameWay root root' way way') (hgrown : FileTree.Grown root root')
    (hstep : FileSystem.step root way piece = .ok next) :
    ∃ next', FileSystem.step root' way' piece = .ok next' ∧ SameWay root root' next next' := by
  have hwithin := h.within.step hstep
  obtain ⟨hdir, hcase⟩ := step_eq_ok hstep
  have hdir' : (way'.tree root').isDirectory = true := by
    rw [← (h.alike hgrown).isDirectory_eq]
    exact hdir
  obtain ⟨hdots, rfl⟩ | ⟨hdots, tree, hchild, rfl⟩ := hcase
  · refine ⟨if piece = ".." then way'.drop 1 else way', ?_, hwithin, ?_, ?_⟩
    · unfold FileSystem.step
      rw [hdir', hdots]
      rfl
    · split
      · exact h.within'.drop
      · exact h.within'
    · split
      · rw [List.map_drop, List.map_drop, h.names]
      · exact h.names
  · obtain ⟨tree', hchild', -⟩ := h.child? hgrown hchild
    refine ⟨(piece, tree') :: way', ?_, hwithin, .cons h.within' (child?_eq_some hchild'), ?_⟩
    · unfold FileSystem.step
      rw [hdir', hdots, hchild']
      rfl
    · rw [List.map_cons, List.map_cons, h.names]

theorem SameWay.foldlM (h : SameWay root root' way way') (hgrown : FileTree.Grown root root')
    (hsteps : pieces.foldlM (FileSystem.step root) way = .ok next) :
    ∃ next', pieces.foldlM (FileSystem.step root') way' = .ok next' ∧
      SameWay root root' next next' := by
  induction pieces generalizing way way' with
  | nil => cases hsteps; exact ⟨way', rfl, h⟩
  | cons piece pieces ih =>
    rw [List.foldlM_cons] at hsteps
    obtain ⟨first, hfirst, hrest⟩ := bind_eq_ok.1 hsteps
    obtain ⟨first', hfirst', hsame⟩ := h.step hgrown hfirst
    obtain ⟨next', hnext', hlast⟩ := ih hsame hrest
    exact ⟨next', by rw [List.foldlM_cons]; exact bind_eq_ok.2 ⟨first', hfirst', hnext'⟩, hlast⟩

/-! ## The place of a path -/

/-- A path leads to a place: its directory is there, and its last name stands in it or
could do so. -/
structure LeadsTo (system : FileSystem) (path : String) (place : Location) : Prop where
  exists_above : ∃ way name, system.above path = .ok (way, name) ∧
    place = way.location name ∧ isDots name = false ∧ ¬ FileTree.maxNameSize < name.utf8ByteSize
  not_slash : Path.endsInSlash path = false

theorem above_eq_ok (h : system.above path = .ok (way, name)) :
    checkPath path = .ok () ∧
      system.follow path (Path.pieces (Path.withoutSlashes path)).dropLast = .ok way ∧
      (way.tree system.root).isDirectory = true ∧
      name = ((Path.pieces (Path.withoutSlashes path)).getLast?).getD "" := by
  unfold above at h
  obtain ⟨⟨⟩, hcheck, h⟩ := bind_eq_ok.1 h
  obtain ⟨there, hfollow, h⟩ := bind_eq_ok.1 h
  split at h
  · rename_i hdir
    cases h
    exact ⟨hcheck, hfollow, hdir, rfl⟩
  · cases h

theorem above_of_follow (hcheck : checkPath path = .ok ())
    (hfollow : system.follow path (Path.pieces (Path.withoutSlashes path)).dropLast = .ok way)
    (hdir : (way.tree system.root).isDirectory = true) :
    system.above path =
      .ok (way, ((Path.pieces (Path.withoutSlashes path)).getLast?).getD "") := by
  unfold above
  refine bind_eq_ok.2 ⟨(), hcheck, bind_eq_ok.2 ⟨way, hfollow, ?_⟩⟩
  rw [hdir]
  rfl

theorem LeadsTo.grown (h : system.LeadsTo path place)
    (hgrown : FileTree.Grown system.root after.root) (hworking : after.working = system.working) :
    after.LeadsTo path place := by
  obtain ⟨way, name, habove, rfl, hdots, hsize⟩ := h.exists_above
  obtain ⟨hcheck, hfollow, hdir, rfl⟩ := above_eq_ok habove
  obtain ⟨way', hfollow', hsame⟩ :=
    SameWay.foldlM (.mk .nil .nil rfl) hgrown hfollow
  have hdir' : (way'.tree after.root).isDirectory = true := by
    rw [← (hsame.alike hgrown).isDirectory_eq]
    exact hdir
  refine ⟨⟨way', _, above_of_follow hcheck ?_ hdir', ?_, hdots, hsize⟩, h.not_slash⟩
  · rw [follow, hworking]
    exact hfollow'
  · rw [Way.location, Way.location, hsame.names]

/-- Paths that differ in their last piece alone lead to different places. -/
theorem LeadsTo.ne {path' : String} {place' : Location} {front : List String} {last last' : String}
    (h : system.LeadsTo path place) (h' : system.LeadsTo path' place')
    (habsolute : Path.isAbsolute path = Path.isAbsolute path')
    (hpieces : Path.pieces path = front ++ [last]) (hpieces' : Path.pieces path' = front ++ [last'])
    (hne : last ≠ last') : place ≠ place' := by
  obtain ⟨way, name, habove, rfl, -, -⟩ := h.exists_above
  obtain ⟨way', name', habove', rfl, -, -⟩ := h'.exists_above
  obtain ⟨-, hfollow, -, rfl⟩ := above_eq_ok habove
  obtain ⟨-, hfollow', -, rfl⟩ := above_eq_ok habove'
  rw [Path.withoutSlashes_of_not_slash h.not_slash, hpieces, List.dropLast_concat] at hfollow
  rw [Path.withoutSlashes_of_not_slash h'.not_slash, hpieces', List.dropLast_concat, follow,
    ← habsolute] at hfollow'
  obtain rfl : way = way' := Except.ok.inj (hfollow.symm.trans hfollow')
  intro hplace
  rw [Way.location_eq, Way.location_eq, Path.withoutSlashes_of_not_slash h.not_slash,
    Path.withoutSlashes_of_not_slash h'.not_slash, hpieces, hpieces', List.getLast?_concat,
    List.getLast?_concat] at hplace
  exact hne (by simpa using hplace)

/-- What lies at the place to which a path leads is found by the path. -/
theorem LeadsTo.lookup (h : system.LeadsTo path place)
    (htree : system.root.get? place = some tree) : system.lookup path = .ok tree := by
  obtain ⟨way, name, habove, rfl, hdots, hsize⟩ := h.exists_above
  obtain ⟨hcheck, hfollow, hdir, hname⟩ := above_eq_ok habove
  rw [Path.withoutSlashes_of_not_slash h.not_slash] at hfollow hname
  have hpieces : Path.pieces path = (Path.pieces path).dropLast ++ [name] := by
    rw [hname, List.getLast?_eq_some_getLast (Path.pieces_ne_nil path), Option.getD_some,
      List.dropLast_append_getLast]
  have hwithin := within_follow hfollow
  rw [Way.location_eq, FileTree.get?_append, hwithin.get?_names, Option.bind_some,
    FileTree.get?_singleton] at htree
  have hchild := child?_of_lookup hsize htree
  have hstep : step system.root way name = .ok ((name, tree) :: way) := by
    unfold step
    rw [hdir, hdots, hchild]
    rfl
  refine bind_eq_ok.2 ⟨(), hcheck, bind_eq_ok.2 ⟨(name, tree) :: way, ?_, rfl⟩⟩
  rw [follow, hpieces, ← List.append_assoc, List.foldlM_append]
  refine bind_eq_ok.2 ⟨way, hfollow, ?_⟩
  rw [List.foldlM_cons, hstep]
  rfl

/-! ## Writing -/

/-- A text was written to the place: it is there to be read, unless a device is there. -/
def Took (system : FileSystem) (place : Location) (text : String) : Prop :=
  system.root.get? place = some (.file text) ∨
    ∃ device, system.root.get? place = some (.device device)

/-- A text was written to a place and nowhere else. Directories stay, and what was at
another place and is no directory is as it was. -/
structure Written (system written : FileSystem) (place : Location) (text : String) : Prop where
  took : written.Took place text
  grown : FileTree.Grown system.root written.root
  working : written.working = system.working
  kept : ∀ other t, other ≠ place → t.isDirectory = false → system.root.get? other = some t →
    written.root.get? other = some t

/-- A write puts a file at a place where there is room for one, or leaves its text to a
device. -/
theorem write_eq_ok (h : system.write path text = .ok written) :
    ∃ way name, system.above path = .ok (way, name) ∧ isDots name = false ∧
      Path.endsInSlash path = false ∧ ∃ entry, (way.tree system.root).child? name = .ok entry ∧
        ((∀ t, entry = some t → ∃ old, t = .file old) ∧
            written = system.put way name (.file text) ∨
          ∃ device, entry = some (.device device) ∧ written.root = system.root ∧
            written.working = system.working) := by
  unfold write at h
  obtain ⟨⟨way, name⟩, habove, h⟩ := bind_eq_ok.1 h
  dsimp only at h
  split at h
  · cases h
  · rename_i hname
    rw [Bool.or_eq_true, not_or, Bool.not_eq_true, Bool.not_eq_true] at hname
    obtain ⟨entry, hchild, h⟩ := bind_eq_ok.1 h
    refine ⟨way, name, habove, hname.1, hname.2, entry, hchild, ?_⟩
    cases entry with
    | none => exact .inl ⟨nofun, (Except.ok.inj h).symm⟩
    | some t =>
      cases t with
      | file old => exact .inl ⟨by rintro _ ⟨⟩; exact ⟨old, rfl⟩, (Except.ok.inj h).symm⟩
      | device device =>
        cases device with
        | null => cases h; exact .inr ⟨_, rfl, rfl, rfl⟩
        | full => cases h
        | output => cases h; exact .inr ⟨_, rfl, rfl, rfl⟩
      | sealed => cases h
      | directory => cases h

theorem written_put (hroom : system.root.Room way.names name) :
    Written system (system.put way name (.file text)) (way.location name) text where
  took := .inl (FileTree.get?_put _ _ _)
  grown := by
    rw [put, Way.location_eq]
    exact FileTree.grown_put hroom
  working := rfl
  kept := by
    intro other t hne hleaf ht
    rw [Way.location_eq] at hne
    obtain ⟨t', ht', -, hsame⟩ := FileTree.get?_put_of_ne hroom ht hne
    rw [put, Way.location_eq, ht', hsame hleaf]

/-- The effect of a write: its text is at the place to which its path leads. -/
theorem exists_written (h : system.write path text = .ok written) :
    ∃ place, system.LeadsTo path place ∧ Written system written place text := by
  obtain ⟨way, name, habove, hdots, hslash, entry, hchild, hcase⟩ := write_eq_ok h
  have hwithin := within_follow (above_eq_ok habove).2.1
  obtain ⟨hsize, es, htree, hentry⟩ := child?_eq_ok hchild
  have hes : system.root.get? way.names = some (.directory es) := by
    rw [hwithin.get?_names, htree]
  refine ⟨way.location name, ⟨⟨way, name, habove, rfl, hdots, hsize⟩, hslash⟩, ?_⟩
  obtain ⟨hfree, rfl⟩ | ⟨device, hdevice, hroot, hworking⟩ := hcase
  · exact written_put ⟨es, hes, fun t ht => hfree t (hentry.symm.trans ht)⟩
  · refine ⟨.inr ⟨device, ?_⟩, hroot ▸ .refl _, hworking, fun _ _ _ _ ht => hroot ▸ ht⟩
    rw [hroot, Way.location_eq, FileTree.get?_append, hes, Option.bind_some,
      FileTree.get?_singleton]
    exact hentry.trans hdevice

/-- A text that was written stays when another place is written to. -/
theorem Took.kept {other : Location} {new : String} (h : system.Took place text)
    (hwritten : Written system written other new) (hne : place ≠ other) :
    written.Took place text := by
  obtain hfile | ⟨device, hdevice⟩ := h
  · exact .inl (hwritten.kept _ _ hne rfl hfile)
  · exact .inr ⟨device, hwritten.kept _ _ hne rfl hdevice⟩

end FileSystem

end ScaleCalls
