import Mathlib.Data.List.Basic
import ScaleCalls.Files.Path

/-!
# The pieces of a path

A name without slashes is one piece. Joined to a directory it is the last piece, behind
pieces that come from the directory alone.

## Main statements

- `Path.exists_pieces_join` — the pieces of a path within a directory
- `Path.withoutSlashes_of_not_slash` — a path that does not end in a slash
-/

namespace ScaleCalls.Path

variable {path name : String} {cs ds : List Char}

theorem piecesOf_ne_nil (cs : List Char) : piecesOf cs ≠ [] := by
  induction cs with
  | nil => exact List.cons_ne_nil _ _
  | cons c cs ih =>
    rw [piecesOf]
    split
    · exact List.cons_ne_nil _ _
    · simpa using ih

theorem pieces_ne_nil (path : String) : pieces path ≠ [] := by
  simpa [pieces] using piecesOf_ne_nil path.toList

theorem piecesOf_of_not_mem (h : '/' ∉ cs) : piecesOf cs = [cs] := by
  induction cs with
  | nil => rfl
  | cons c cs ih =>
    rw [List.mem_cons, not_or] at h
    rw [piecesOf, if_neg (Ne.symm h.1), ih h.2]
    rfl

theorem piecesOf_append_slash (cs ds : List Char) :
    piecesOf (cs ++ '/' :: ds) = piecesOf cs ++ piecesOf ds := by
  induction cs with
  | nil => rfl
  | cons c cs ih =>
    rw [List.cons_append, piecesOf, piecesOf, ih]
    split
    · rfl
    · obtain ⟨first, rest, hpieces⟩ := List.exists_cons_of_ne_nil (piecesOf_ne_nil cs)
      rw [hpieces]
      rfl

theorem pieces_of_not_mem (h : '/' ∉ name.toList) : pieces name = [name] := by
  rw [pieces, piecesOf_of_not_mem h, List.map_singleton, String.ofList_toList]

theorem pieces_append_slash (path name : String) :
    pieces (path ++ "/" ++ name) = pieces path ++ pieces name := by
  have hlist : (path ++ "/" ++ name).toList = path.toList ++ '/' :: name.toList := by
    rw [String.toList_append, String.toList_append, List.append_assoc]
    rfl
  rw [pieces, hlist, piecesOf_append_slash, List.map_append]
  rfl

theorem exists_of_endsInSlash (h : endsInSlash path = true) : ∃ front, path = front ++ "/" := by
  unfold endsInSlash at h
  obtain ⟨front, hfront⟩ := List.getLast?_eq_some_iff.1 (beq_iff_eq.1 h)
  refine ⟨String.ofList front, String.toList_inj.1 ?_⟩
  rw [hfront, String.toList_append, String.toList_ofList]
  rfl

theorem isAbsolute_of_not_mem (h : '/' ∉ name.toList) : isAbsolute name = false := by
  unfold isAbsolute
  cases hlist : name.toList with
  | nil => rfl
  | cons c cs =>
    rw [hlist, List.mem_cons, not_or] at h
    simpa using Ne.symm h.1

theorem isAbsolute_append (hne : path ≠ "") : isAbsolute (path ++ name) = isAbsolute path := by
  unfold isAbsolute
  obtain ⟨c, cs, hlist⟩ := List.exists_cons_of_ne_nil (mt String.toList_eq_nil_iff.1 hne)
  rw [String.toList_append, hlist]
  rfl

/-- Names within a directory differ in their last piece alone. -/
theorem exists_pieces_join (directory : String) : ∃ front absolute, ∀ name : String,
    '/' ∉ name.toList → pieces (join directory name) = front ++ [name] ∧
      isAbsolute (join directory name) = absolute := by
  have hjoin : ∀ name : String, '/' ∉ name.toList → join directory name =
      if directory = "" then name
      else if endsInSlash directory then directory ++ name
      else directory ++ "/" ++ name := by
    intro name hname
    simp [join, isAbsolute_of_not_mem hname, String.isEmpty_iff]
  by_cases hempty : directory = ""
  · refine ⟨[], false, fun name hname => ?_⟩
    rw [hjoin name hname, if_pos hempty]
    exact ⟨pieces_of_not_mem hname, isAbsolute_of_not_mem hname⟩
  · by_cases hslash : endsInSlash directory = true
    · obtain ⟨front, rfl⟩ := exists_of_endsInSlash hslash
      refine ⟨pieces front, isAbsolute (front ++ "/"), fun name hname => ?_⟩
      rw [hjoin name hname, if_neg hempty, if_pos hslash, pieces_append_slash,
        pieces_of_not_mem hname]
      exact ⟨rfl, isAbsolute_append hempty⟩
    · refine ⟨pieces directory, isAbsolute directory, fun name hname => ?_⟩
      rw [hjoin name hname, if_neg hempty, if_neg hslash, pieces_append_slash,
        pieces_of_not_mem hname]
      refine ⟨rfl, ?_⟩
      rw [String.append_assoc]
      exact isAbsolute_append hempty

theorem withoutSlashes_of_not_slash (h : endsInSlash path = false) :
    withoutSlashes path = path := by
  unfold endsInSlash at h
  unfold withoutSlashes
  cases hlist : path.toList with
  | nil => rw [← String.toList_inj, hlist]; rfl
  | cons c cs =>
    rw [hlist] at h
    have hkeep : (cs.reverse.dropWhile (· == '/')).reverse = cs := by
      cases hlast : cs.reverse with
      | nil => rw [List.reverse_eq_nil_iff.1 hlast]; rfl
      | cons d ds =>
        have hcs : cs = ds.reverse ++ [d] := by
          rw [← List.reverse_reverse cs, hlast, List.reverse_cons]
        have hd : (d == '/') = false := by simpa [hcs, List.getLast?_cons] using h
        rw [List.dropWhile_cons, hd, hcs]
        simp
    dsimp only
    rw [hkeep, ← hlist, String.ofList_toList]

end ScaleCalls.Path
