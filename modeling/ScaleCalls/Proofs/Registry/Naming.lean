import ScaleCalls.Proofs.Registry.Spelling

/-!
# The naming of a registry

What one step of the naming can do, and what a whole run preserves: all recorded names are
texts that can be written for their types, and no recorded name is changed.

## Main definitions

- `Registry.Step` — what the naming of one type comes to
- `Naming.Spells` — all recorded names are spelled for their types

## Main statements

- `nameWithin_step` — the one place where the naming is unfolded
- `spelled_get_nameAll` — names are spelled for their types
- `recorded_nameAll` — in the end all types have a name
-/

namespace ScaleCalls.Registry

variable {registry : Registry} {entry : Entry} {naming : Naming} {number other : UInt32}
  {name : String} {fuel : Nat} {path : List UInt32}

@[simp] theorem Naming.getElem?_record (naming : Naming) (number : UInt32) (name : String)
    (other : UInt32) : (naming.record number name).names[other]? =
      if number = other then some name else naming.names[other]? := by
  rw [record, Std.TreeMap.getElem?_insert]
  by_cases h : number = other <;> simp [h]

@[simp] theorem Naming.names_take (naming : Naming) (text : String) :
    (naming.take text).names = naming.names := rfl

theorem Naming.free_mem (naming : Naming) (texts : List String) (last : String) :
    naming.free texts last ∈ texts ∨ naming.free texts last = last := by
  unfold free
  cases hfind : texts.find? fun text => !naming.taken.contains text with
  | none => exact .inr rfl
  | some text => exact .inl (List.mem_of_find?_eq_some hfind)

/-- The names of several types are made one after the other. -/
theorem Naming.forAll_spec {Inv : Naming → Prop} {Post : UInt32 → String → Prop}
    {step : Naming → UInt32 → String × Naming} {numbers : List UInt32}
    (hstep : ∀ naming, ∀ number ∈ numbers, Inv naming →
      Post number (step naming number).1 ∧ Inv (step naming number).2)
    (h : Inv naming) :
    (∃ parts : List (UInt32 × String), parts.map Prod.fst = numbers ∧
      parts.map Prod.snd = (naming.forAll step numbers).1 ∧ ∀ part ∈ parts, Post part.1 part.2) ∧
      Inv (naming.forAll step numbers).2 := by
  induction numbers generalizing naming with
  | nil => exact ⟨⟨[], rfl, rfl, by simp⟩, h⟩
  | cons number numbers ih =>
    obtain ⟨hpost, hinv⟩ := hstep naming number List.mem_cons_self h
    obtain ⟨⟨parts, hfst, hsnd, hparts⟩, hrest⟩ :=
      ih (fun naming n hn => hstep naming n (List.mem_cons_of_mem _ hn)) hinv
    refine ⟨⟨(number, (step naming number).1) :: parts, ?_, ?_, ?_⟩, hrest⟩
    · rw [List.map_cons, hfst]
    · rw [List.map_cons, hsnd]
      rfl
    · intro part hpart
      rcases List.mem_cons.1 hpart with rfl | hpart
      · exact hpost
      · exact hparts part hpart

theorem Naming.forAll_preserves {Inv : Naming → Prop}
    {step : Naming → UInt32 → String × Naming} {numbers : List UInt32}
    (hstep : ∀ naming, ∀ number ∈ numbers, Inv naming → Inv (step naming number).2)
    (h : Inv naming) : Inv (naming.forAll step numbers).2 := by
  induction numbers generalizing naming with
  | nil => exact h
  | cons number numbers ih =>
    exact ih (fun naming n hn => hstep naming n (List.mem_cons_of_mem _ hn))
      (hstep naming number List.mem_cons_self h)

/-- What the naming of one type comes to. -/
inductive Step (registry : Registry) (fuel : Nat) (path : List UInt32) (naming : Naming)
    (number : UInt32) : String × Naming → Prop where
  /-- The type has a name. -/
  | recorded {name : String} (hname : naming.names[number]? = some name) :
      Step registry fuel path naming number (name, naming)
  /-- There is no such type, or its name is being made. -/
  | stopped (hnew : naming.names[number]? = none)
      (hstop : registry.get? number = none ∨ number ∈ path) :
      Step registry fuel path naming number (idReference number, naming)
  | fixed {entry : Entry} {text : String} (hnew : naming.names[number]? = none)
      (hentry : registry.get? number = some entry) (hpath : number ∉ path)
      (hrule : rule number entry = .fixed text) :
      Step registry fuel path naming number (text, naming.record number text)
  | own {entry : Entry} {texts : List String} {last : String}
      (hnew : naming.names[number]? = none) (hentry : registry.get? number = some entry)
      (hpath : number ∉ path) (hrule : rule number entry = .own texts last) :
      Step registry fuel path naming number (naming.free texts last,
        (naming.take (naming.free texts last)).record number (naming.free texts last))
  | around {entry : Entry} {before after : String} {inners : List UInt32} {names : List String}
      {below : Naming} (hnew : naming.names[number]? = none)
      (hentry : registry.get? number = some entry) (hpath : number ∉ path)
      (hrule : rule number entry = .around before inners after)
      (hbelow : naming.forAll (registry.nameWithin fuel (number :: path)) inners =
        (names, below)) :
      Step registry fuel path naming number (before ++ String.intercalate ", " names ++ after,
        below.record number (before ++ String.intercalate ", " names ++ after))

theorem nameWithin_step (registry : Registry) (fuel : Nat) (path : List UInt32) (naming : Naming)
    (number : UInt32) :
    Step registry fuel path naming number (registry.nameWithin (fuel + 1) path naming number) := by
  rw [nameWithin]
  split
  · rename_i name hname
    exact .recorded hname
  · rename_i hnew
    split
    · rename_i hentry
      exact .stopped hnew (.inl hentry)
    · rename_i entry hentry
      split
      · rename_i hpath
        exact .stopped hnew (.inr (List.contains_iff_mem.1 hpath))
      · rename_i hpath
        have hpath : number ∉ path := fun hmem => hpath (List.contains_iff_mem.2 hmem)
        split
        · rename_i text hrule
          exact .fixed hnew hentry hpath hrule
        · rename_i before inners after hrule
          exact .around hnew hentry hpath hrule rfl
        · rename_i texts last hrule
          exact .own hnew hentry hpath hrule

theorem nameAll_induct {Inv : Naming → Prop} (hempty : Inv .empty)
    (hstep : ∀ naming, ∀ entry ∈ registry.types.toList, Inv naming →
      Inv (registry.nameOf naming entry.id).2) : Inv registry.nameAll :=
  List.foldlRecOn registry.types.toList _ hempty fun naming h entry hentry =>
    hstep naming entry hentry h

/-! ## All names are spelled -/

/-- All recorded names can be written for their types. -/
def Naming.Spells (naming : Naming) (registry : Registry) : Prop :=
  ∀ number name, naming.names[number]? = some name → registry.Spelled number name

theorem Naming.Spells.record (h : naming.Spells registry) (hname : registry.Spelled number name) :
    (naming.record number name).Spells registry := by
  intro other text htext
  rw [getElem?_record] at htext
  split at htext
  · rename_i heq
    cases htext
    rwa [← heq]
  · exact h other text htext

theorem spelled_fixed (hregistry : registry.WellFormed)
    (hentry : registry.get? number = some entry) {text : String}
    (hrule : rule number entry = .fixed text) : registry.Spelled number text := by
  have hnamed := named_rule number entry
  rw [hrule] at hnamed
  cases hnamed with
  | scalar kind => exact .word (word_scalar kind)
  | bits => exact .word (word_of_lookupId? (by decide) (by decide))
  | segment hsegment =>
    exact .word (hregistry.word_segment hentry (List.mem_of_getLast? hsegment))

theorem spelled_own (hregistry : registry.WellFormed)
    (hentry : registry.get? number = some entry) {texts : List String} {text last : String}
    (hrule : rule number entry = .own texts last) (htext : text ∈ texts ∨ text = last) :
    registry.Spelled number text := by
  have hnamed := named_rule number entry
  rw [hrule] at hnamed
  cases hnamed with
  | path hsegment =>
    have hpath : entry.path ≠ [] := by
      rintro hnil
      rw [hnil] at hsegment
      cases hsegment
    obtain htext | rfl := htext
    · obtain rfl | htext := List.mem_cons.1 htext
      · exact .word (hregistry.word_segment hentry (List.mem_of_getLast? hsegment))
      · rw [List.mem_singleton.1 htext]
        exact .word (hregistry.word_path hentry hpath)
    · exact .word (hregistry.word_path_number hentry hpath)
  | position =>
    obtain htext | rfl := htext
    · cases htext
    · exact .word (word_position number)

theorem spelled_around (hentry : registry.get? number = some entry) {before after : String}
    {parts : List (UInt32 × String)}
    (hrule : rule number entry = .around before (parts.map Prod.fst) after)
    (hparts : ∀ part ∈ parts, registry.Spelled part.1 part.2) :
    registry.Spelled number
      (before ++ String.intercalate ", " (parts.map Prod.snd) ++ after) := by
  have hnamed := named_rule number entry
  rw [hrule] at hnamed
  generalize hinners : parts.map Prod.fst = inners at hnamed
  cases hnamed with
  | container hcontainer =>
    obtain ⟨part, rfl, rfl⟩ := List.map_eq_singleton_iff.1 hinners
    exact .around (.container hentry hcontainer) (hparts part (List.mem_singleton_self _))
  | newtype hnewtype =>
    obtain ⟨part, rfl, rfl⟩ := List.map_eq_singleton_iff.1 hinners
    -- nothing is written around the name of a field
    refine .around (.newtype ⟨entry, hentry, hnewtype⟩) ?_
    have hname : "" ++ String.intercalate ", " ([part].map Prod.snd) ++ "" = part.2 := by
      rw [String.empty_append, String.append_empty]
      rfl
    rw [hname]
    exact hparts part (List.mem_singleton_self _)
  | compact inner =>
    obtain ⟨part, rfl, rfl⟩ := List.map_eq_singleton_iff.1 hinners
    exact .compact (hparts part (List.mem_singleton_self _))
  | tuple elems => exact .tuple hparts

/-- Names are made of texts for types, and so is what is recorded on the way. -/
theorem spelled_nameWithin (hregistry : registry.WellFormed) (fuel : Nat) (path : List UInt32)
    (h : naming.Spells registry) (number : UInt32) :
    registry.Spelled number (registry.nameWithin fuel path naming number).1 ∧
      (registry.nameWithin fuel path naming number).2.Spells registry := by
  induction fuel generalizing path naming number with
  | zero => exact ⟨.word (word_reference number), h⟩
  | succ fuel ih =>
    have hstep := nameWithin_step registry fuel path naming number
    generalize registry.nameWithin (fuel + 1) path naming number = result at hstep ⊢
    cases hstep with
    | recorded hname => exact ⟨h number _ hname, h⟩
    | stopped _ _ => exact ⟨.word (word_reference number), h⟩
    | fixed _ hentry _ hrule =>
      have hname := spelled_fixed hregistry hentry hrule
      exact ⟨hname, h.record hname⟩
    | @own _ texts last _ hentry _ hrule =>
      have hname := spelled_own hregistry hentry hrule (naming.free_mem texts last)
      refine ⟨hname, Naming.Spells.record ?_ hname⟩
      exact h
    | @around _ _ _ inners _ _ _ hentry _ hrule hbelow =>
      have hall : ∀ naming : Naming, ∀ n ∈ inners, naming.Spells registry →
          registry.Spelled n (registry.nameWithin fuel (number :: path) naming n).1 ∧
            (registry.nameWithin fuel (number :: path) naming n).2.Spells registry :=
        fun naming n _ hnaming => ih (number :: path) hnaming n
      obtain ⟨⟨parts, hfst, hsnd, hparts⟩, hrest⟩ := Naming.forAll_spec hall h
      rw [hbelow] at hsnd hrest
      rw [← hfst] at hrule
      have hname := spelled_around hentry hrule hparts
      rw [hsnd] at hname
      exact ⟨hname, hrest.record hname⟩

theorem spells_nameAll (hregistry : registry.WellFormed) :
    (registry.nameAll).Spells registry := by
  have hempty : Naming.empty.Spells registry := by
    intro number name hname
    simp [Naming.empty] at hname
  have hstep : ∀ naming : Naming, ∀ entry ∈ registry.types.toList, naming.Spells registry →
      (registry.nameOf naming entry.id).2.Spells registry := fun naming entry _ hnaming =>
    (spelled_nameWithin hregistry _ [] hnaming entry.id).2
  exact nameAll_induct hempty hstep

theorem spelled_get_nameAll (hregistry : registry.WellFormed) (number : UInt32) :
    registry.Spelled number (registry.nameAll.get number) := by
  rw [Naming.get]
  cases hname : registry.nameAll.names[number]? with
  | none => exact .word (word_reference number)
  | some name => exact spells_nameAll hregistry number name hname

/-! ## Names stay -/

/-- The naming of other types leaves a type alone that has a name or whose name is being
made. -/
theorem names_nameWithin (fuel : Nat) (h : other ∈ path ∨ naming.names[other]? ≠ none)
    (number : UInt32) :
    (registry.nameWithin fuel path naming number).2.names[other]? = naming.names[other]? := by
  induction fuel generalizing path naming number with
  | zero => rfl
  | succ fuel ih =>
    have hstep := nameWithin_step registry fuel path naming number
    generalize registry.nameWithin (fuel + 1) path naming number = result at hstep ⊢
    have hne : naming.names[number]? = none → number ∉ path → number ≠ other := by
      rintro hnew hpath rfl
      exact h.elim hpath fun hrecorded => hrecorded hnew
    cases hstep with
    | recorded _ | stopped _ _ => rfl
    | fixed hnew _ hpath _ | own hnew _ hpath _ =>
      simp only [Naming.getElem?_record, Naming.names_take, if_neg (hne hnew hpath)]
    | @around _ _ _ inners _ _ hnew _ hpath _ hbelow =>
      have hall : ∀ between : Naming, ∀ n ∈ inners,
          between.names[other]? = naming.names[other]? →
          (registry.nameWithin fuel (number :: path) between n).2.names[other]? =
            naming.names[other]? := by
        intro between n _ hbetween
        rw [ih (h.imp (List.mem_cons_of_mem _) fun hrecorded => hbetween ▸ hrecorded) n, hbetween]
      have hrest := Naming.forAll_preserves hall rfl
      rw [hbelow] at hrest
      rw [Naming.getElem?_record, if_neg (hne hnew hpath)]
      exact hrest

theorem recorded_nameOf (h : registry.get? number = some entry) (naming : Naming) :
    (registry.nameOf naming number).2.names[number]? ≠ none := by
  unfold nameOf
  have hstep := nameWithin_step registry registry.types.size [] naming number
  generalize registry.nameWithin (registry.types.size + 1) [] naming number = result at hstep ⊢
  cases hstep with
  | recorded hname =>
    rw [hname]
    exact Option.some_ne_none _
  | stopped _ hstop =>
    obtain hnone | hmem := hstop
    · rw [h] at hnone
      cases hnone
    · cases hmem
  | fixed _ _ _ _ | own _ _ _ _ | around _ _ _ _ _ =>
    rw [Naming.getElem?_record, if_pos rfl]
    exact Option.some_ne_none _

/-- In the end every type has a name. -/
theorem recorded_nameAll (hpositional : registry.Positional)
    (h : registry.get? number = some entry) : registry.nameAll.names[number]? ≠ none := by
  have hid := hpositional.id_eq h
  obtain ⟨before, after, hsplit⟩ := List.append_of_mem (mem_of_get? h)
  rw [nameAll, hsplit, List.foldl_append, List.foldl_cons, hid]
  generalize before.foldl (fun naming entry => (registry.nameOf naming entry.id).2) .empty = start
  have hrecorded := recorded_nameOf h start
  generalize (registry.nameOf start number).2 = naming at hrecorded ⊢
  clear hsplit
  -- the turn of the type is over, and all later ones leave its name alone
  induction after generalizing naming with
  | nil => exact hrecorded
  | cons entry after ih =>
    rw [List.foldl_cons]
    refine ih _ ?_
    rw [nameOf, names_nameWithin _ (.inr hrecorded)]
    exact hrecorded

end ScaleCalls.Registry
