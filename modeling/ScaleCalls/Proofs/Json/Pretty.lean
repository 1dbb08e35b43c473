import ScaleCalls.Proofs.Json.Numbers
import ScaleCalls.Proofs.Json.Plain
import ScaleCalls.Proofs.Json.Strings

/-!
# Pretty texts are read back

The pretty text of a plain value is read as the spelling of this value, with nothing left
over, and the spelling denotes the value again.

## Main definitions

- `Json.written` — the spelling of a value
- `Json.ReadsBack` — a value whose text is read as its spelling wherever it stands

## Main statements

- `Json.read?_pretty` — the text of a plain value is read as its spelling
- `Json.value?_written` — the spelling of a plain value denotes it
-/

namespace ScaleCalls.Json

mutual

/-- The spelling of a value in its pretty text; that of doubles is left open. -/
def written : Json → Written
  | null | number (.real _) => .null
  | bool b => .bool b
  | number (.integer i) => .number (numeral i)
  | string s => .string (spelled s)
  | array items => .array (writtenItems items)
  | object members => .object (writtenMembers members)

def writtenItems : List Json → List Written
  | [] => []
  | item :: items => written item :: writtenItems items

def writtenMembers : List (String × Json) → List (List Piece × Written)
  | [] => []
  | (key, value) :: members => (spelled key, written value) :: writtenMembers members

end

theorem writtenItems_eq_map (items : List Json) : writtenItems items = items.map written := by
  induction items with
  | nil => rfl
  | cons item items ih => rw [writtenItems, ih, List.map_cons]

theorem writtenMembers_eq_map (members : List (String × Json)) :
    writtenMembers members = members.map fun m => (spelled m.1, written m.2) := by
  induction members with
  | nil => rfl
  | cons member members ih => rw [writtenMembers, ih, List.map_cons]

/-! ## Blanks -/

/-- Characters that start with neither a blank nor a closing bracket. -/
inductive Starts : List Char → Prop
  | intro {c : Char} {cs : List Char} (hspace : isSpace c = false) (hclose : c ≠ ']') :
      Starts (c :: cs)

theorem Starts.append {front : List Char} (h : Starts front) (back : List Char) :
    Starts (front ++ back) := by
  cases h with
  | intro hspace hclose => exact .intro hspace hclose

theorem skipSpace_cons {c : Char} (h : isSpace c = false) (cs : List Char) :
    skipSpace (c :: cs) = c :: cs :=
  List.dropWhile_cons_of_neg (by simp [h])

theorem Starts.skipSpace_eq {cs : List Char} (h : Starts cs) : skipSpace cs = cs := by
  cases h with
  | intro hspace _ => exact skipSpace_cons hspace _

theorem skipSpace_newLine (level : Nat) (cs : List Char) :
    skipSpace (newLine level ++ cs) = skipSpace cs := by
  refine List.dropWhile_append_of_pos fun c hc => ?_
  obtain rfl | hc := List.mem_cons.1 hc
  · rfl
  · rw [List.eq_of_mem_replicate hc]
    rfl

theorem ends_newLine (level : Nat) (cs : List Char) : Ends (newLine level ++ cs) := .newLine _

/-! ## Steps of the reader -/

section Steps

variable {fuel : Nat} {cs behind rest : List Char}

theorem readItems?_last {item : Written} (hitem : readValue? fuel cs = some (item, behind))
    (hclose : skipSpace behind = ']' :: rest) :
    readItems? (fuel + 1) cs = some ([item], rest) := by
  simp [readItems?, hitem, hclose]

theorem readItems?_more {item : Written} {items : List Written} {more : List Char}
    (hitem : readValue? fuel cs = some (item, behind)) (hcomma : skipSpace behind = ',' :: more)
    (hitems : readItems? fuel (skipSpace more) = some (items, rest)) :
    readItems? (fuel + 1) cs = some (item :: items, rest) := by
  simp [readItems?, hitem, hcomma, hitems]

theorem readMembers?_last {key : List Piece} {value : Written} {colon start : List Char}
    (hkey : readString? cs = some (key, colon)) (hcolon : skipSpace colon = ':' :: start)
    (hvalue : readValue? fuel (skipSpace start) = some (value, behind))
    (hclose : skipSpace behind = '\x7d' :: rest) :
    readMembers? (fuel + 1) ('"' :: cs) = some ([(key, value)], rest) := by
  simp [readMembers?, hkey, hcolon, hvalue, hclose]

theorem readMembers?_more {key : List Piece} {value : Written} {colon start more : List Char}
    {members : List (List Piece × Written)} (hkey : readString? cs = some (key, colon))
    (hcolon : skipSpace colon = ':' :: start)
    (hvalue : readValue? fuel (skipSpace start) = some (value, behind))
    (hcomma : skipSpace behind = ',' :: more)
    (hmembers : readMembers? fuel (skipSpace more) = some (members, rest)) :
    readMembers? (fuel + 1) ('"' :: cs) = some ((key, value) :: members, rest) := by
  simp [readMembers?, hkey, hcolon, hvalue, hcomma, hmembers]

theorem readValue?_array {items : List Written} {start : List Char} (hskip : skipSpace cs = start)
    (hstart : Starts start) (hitems : readItems? fuel start = some (items, rest)) :
    readValue? (fuel + 1) ('[' :: cs) = some (.array items, rest) := by
  rw [readValue?, hskip]
  obtain ⟨-, hclose⟩ := hstart
  split
  · rename_i h
    exact absurd (List.cons.inj h).1 hclose
  · rw [hitems]
    rfl

theorem readValue?_object {members : List (List Piece × Written)} {start : List Char}
    (hstart : skipSpace cs = '"' :: start)
    (hmembers : readMembers? fuel ('"' :: start) = some (members, rest)) :
    readValue? (fuel + 1) ('\x7b' :: cs) = some (.object members, rest) := by
  simp [readValue?, hstart, hmembers]

end Steps

/-! ## Values -/

/-- Wherever the text of a value stands, it is read as the spelling of the value, if there
are two steps for each character. -/
structure ReadsBack (value : Json) : Prop where
  starts : ∀ level, Starts (value.prettyChars level)
  reads : ∀ level fuel rest, 2 * (value.prettyChars level).length ≤ fuel → Ends rest →
    readValue? fuel (value.prettyChars level ++ rest) = some (value.written, rest)

theorem prettyItems_cons_cons (level : Nat) (item next : Json) (items : List Json) :
    prettyItems level (item :: next :: items) =
      prettyChars level item ++ ',' :: (newLine level ++ prettyItems level (next :: items)) := rfl

theorem starts_prettyItems {items : List Json} (hne : items ≠ [])
    (h : ∀ item ∈ items, ReadsBack item) (level : Nat) : Starts (prettyItems level items) := by
  obtain ⟨item, items, rfl⟩ := List.exists_cons_of_ne_nil hne
  have hitem := (h item List.mem_cons_self).starts level
  cases items with
  | nil => exact hitem
  | cons next items => exact hitem.append _

/-- The items of an array are read one after the other, up to the closing bracket. -/
theorem readItems?_prettyItems {items : List Json} (hne : items ≠ [])
    (h : ∀ item ∈ items, ReadsBack item) {level outer fuel : Nat} {rest : List Char}
    (hfuel : 2 * (prettyItems level items).length < fuel) :
    readItems? fuel (prettyItems level items ++ (newLine outer ++ ']' :: rest)) =
      some (items.map written, rest) := by
  induction items generalizing fuel with
  | nil => exact absurd rfl hne
  | cons item items ih =>
    obtain ⟨fuel, rfl⟩ := Nat.exists_eq_add_of_lt (Nat.zero_lt_of_lt hfuel)
    have hitem := h item List.mem_cons_self
    cases items with
    | nil =>
      rw [prettyItems] at hfuel ⊢
      refine readItems?_last (hitem.reads level _ _ (by omega) (ends_newLine _ _)) ?_
      rw [skipSpace_newLine]
      rfl
    | cons next items =>
      have hmore : ∀ i ∈ next :: items, ReadsBack i := fun i hi => h i (List.mem_cons_of_mem _ hi)
      have hnext := starts_prettyItems (List.cons_ne_nil next items) hmore level
      rw [prettyItems_cons_cons, List.length_append, List.length_cons, List.length_append] at hfuel
      rw [prettyItems_cons_cons, List.append_assoc, List.cons_append, List.append_assoc]
      refine readItems?_more (hitem.reads level _ _ (by omega) (.comma _)) rfl ?_
      rw [skipSpace_newLine, (hnext.append _).skipSpace_eq]
      exact ih (List.cons_ne_nil next items) hmore (by omega)

theorem quoted_append (key : String) (cs : List Char) :
    quoted key ++ cs = '"' :: (key.toList.flatMap escape ++ '"' :: cs) := by
  simp [quoted]

theorem skipSpace_blank (cs : List Char) : skipSpace (' ' :: cs) = skipSpace cs := rfl

theorem prettyMembers_cons_cons (level : Nat) (key : String) (value : Json)
    (next : String × Json) (members : Members) :
    prettyMembers level ((key, value) :: next :: members) =
      quoted key ++ ':' :: ' ' :: (prettyChars level value ++
        ',' :: (newLine level ++ prettyMembers level (next :: members))) := rfl

theorem exists_prettyMembers {members : Members} (hne : members ≠ []) (level : Nat) :
    ∃ cs, prettyMembers level members = '"' :: cs := by
  obtain ⟨⟨key, value⟩, members, rfl⟩ := List.exists_cons_of_ne_nil hne
  cases members with
  | nil => exact ⟨_, quoted_append key _⟩
  | cons next members => exact ⟨_, quoted_append key _⟩

/-- The members of an object are read one after the other, up to the closing brace. -/
theorem readMembers?_prettyMembers {members : Members} (hne : members ≠ [])
    (h : ∀ m ∈ members, ReadsBack m.2) {level outer fuel : Nat} {rest : List Char}
    (hfuel : 2 * (prettyMembers level members).length < fuel) :
    readMembers? fuel (prettyMembers level members ++ (newLine outer ++ '\x7d' :: rest)) =
      some (members.map fun m => (spelled m.1, written m.2), rest) := by
  induction members generalizing fuel with
  | nil => exact absurd rfl hne
  | cons member members ih =>
    obtain ⟨fuel, rfl⟩ := Nat.exists_eq_add_of_lt (Nat.zero_lt_of_lt hfuel)
    obtain ⟨key, value⟩ := member
    have hvalue : ReadsBack value := h (key, value) List.mem_cons_self
    -- the value is read behind the blank that follows the colon
    have hread : ∀ behind, Ends behind → 2 * (prettyChars level value).length ≤ 0 + fuel →
        readValue? (0 + fuel) (skipSpace (' ' :: (prettyChars level value ++ behind))) =
          some (written value, behind) := by
      intro behind hbehind hlength
      rw [skipSpace_blank, ((hvalue.starts level).append _).skipSpace_eq]
      exact hvalue.reads level _ _ hlength hbehind
    cases members with
    | nil =>
      rw [prettyMembers, List.length_append, List.length_cons, List.length_cons] at hfuel
      rw [prettyMembers, List.append_assoc, quoted_append]
      refine readMembers?_last (readString?_quoted key _) rfl
        (hread _ (ends_newLine _ _) (by omega)) ?_
      rw [skipSpace_newLine]
      rfl
    | cons next members =>
      have hmore : ∀ m ∈ next :: members, ReadsBack m.2 := fun m hm =>
        h m (List.mem_cons_of_mem _ hm)
      obtain ⟨start, hstart⟩ := exists_prettyMembers (List.cons_ne_nil next members) level
      rw [prettyMembers_cons_cons, List.length_append, List.length_cons, List.length_cons,
        List.length_append, List.length_cons, List.length_append] at hfuel
      rw [prettyMembers_cons_cons, List.append_assoc, quoted_append, List.cons_append,
        List.cons_append, List.append_assoc, List.cons_append, List.append_assoc]
      refine readMembers?_more (readString?_quoted key _) rfl
        (hread _ (.comma _) (by omega)) rfl ?_
      rw [skipSpace_newLine, hstart, List.cons_append, skipSpace_cons (by decide),
        ← List.cons_append, ← hstart]
      exact ih (List.cons_ne_nil next members) hmore (by omega)

theorem exists_succ_of_le {cs : List Char} (h : Starts cs) {fuel : Nat}
    (hfuel : 2 * cs.length ≤ fuel) : ∃ n, fuel = n + 1 ∧ 2 * cs.length ≤ n + 1 := by
  cases h with
  | @intro c cs =>
    rw [List.length_cons] at hfuel ⊢
    exact ⟨fuel - 1, by omega, by omega⟩

/-- A value whose text is the same at all levels and starts no array and no object. -/
theorem readsBack_of_scalar {value : Json} {c : Char} {cs : List Char}
    (htext : ∀ level, value.prettyChars level = c :: cs) (hspace : isSpace c = false)
    (hc : c ∉ ['[', ']', '\x7b'])
    (hread : ∀ rest, Ends rest → readScalar? (c :: cs ++ rest) = some (value.written, rest)) :
    ReadsBack value := by
  simp only [List.mem_cons, List.not_mem_nil, or_false, not_or] at hc
  have hstarts : ∀ level, Starts (value.prettyChars level) := fun level =>
    htext level ▸ .intro hspace hc.2.1
  refine ⟨hstarts, fun level fuel rest hfuel hrest => ?_⟩
  obtain ⟨n, rfl, -⟩ := exists_succ_of_le (hstarts level) hfuel
  rw [htext, List.cons_append, readValue?.eq_4, ← List.cons_append, hread rest hrest]
  · exact fun _ h => hc.1 (List.cons.inj h).1
  · exact fun _ h => hc.2.2 (List.cons.inj h).1

/-- An integer starts with its sign or with a digit. -/
theorem exists_text_integer (i : Int) : ∃ c cs, (Number.integer i).text = c :: cs ∧
    isSpace c = false ∧ c ∉ ['[', ']', '\x7b'] := by
  rw [text_integer]
  by_cases hneg : i < 0
  · rw [if_pos hneg]
    exact ⟨'-', _, rfl, by decide, by decide⟩
  · rw [if_neg hneg, List.nil_append]
    obtain ⟨c, cs, hdigits, hc⟩ := Text.exists_toDigits_eq_cons i.natAbs
    have hne : ∀ {d : Char}, d.isDigit = false → c ≠ d := Text.ne_of_isDigit hc
    refine ⟨c, cs, hdigits, ?_, ?_⟩
    · simp [isSpace, hne]
    · simp [hne]

theorem readsBack_integer (i : Int) : ReadsBack (.number (.integer i)) := by
  obtain ⟨c, cs, htext, hspace, hc⟩ := exists_text_integer i
  refine readsBack_of_scalar (fun _ => htext) hspace hc fun rest hrest => ?_
  rw [← htext]
  exact readScalar?_integer i hrest

theorem readsBack_string (s : String) : ReadsBack (.string s) := by
  refine readsBack_of_scalar (fun _ => rfl) (by decide) (by decide) fun rest _ => ?_
  rw [List.cons_append, List.append_assoc, List.singleton_append, readScalar?,
    readString?_quoted]
  rfl

theorem prettyChars_array_cons (level : Nat) (item : Json) (items : List Json) :
    prettyChars level (.array (item :: items)) =
      '[' :: (newLine (level + 1) ++ (prettyItems (level + 1) (item :: items) ++
        (newLine level ++ [']']))) := rfl

theorem prettyChars_object_cons (level : Nat) (member : String × Json) (members : Members) :
    prettyChars level (.object (member :: members)) =
      '\x7b' :: (newLine (level + 1) ++ (prettyMembers (level + 1) (member :: members) ++
        (newLine level ++ ['\x7d']))) := rfl

theorem readsBack_array {items : List Json} (h : ∀ item ∈ items, ReadsBack item) :
    ReadsBack (.array items) := by
  cases items with
  | nil =>
    refine ⟨fun level => .intro (by decide) (by decide), fun level fuel rest hfuel _ => ?_⟩
    obtain ⟨n, rfl, -⟩ := exists_succ_of_le (.intro (by decide) (by decide)) hfuel
    rfl
  | cons item items =>
    have hstarts := starts_prettyItems (List.cons_ne_nil item items) h
    refine ⟨fun level => .intro (by decide) (by decide), fun level fuel rest hfuel _ => ?_⟩
    rw [prettyChars_array_cons] at hfuel ⊢
    obtain ⟨n, rfl, hlength⟩ := exists_succ_of_le (.intro (by decide) (by decide)) hfuel
    simp only [List.length_cons, List.length_append] at hlength
    simp only [List.cons_append, List.append_assoc, List.nil_append]
    have hskip : skipSpace (newLine (level + 1) ++ (prettyItems (level + 1) (item :: items) ++
        (newLine level ++ ']' :: rest))) =
        prettyItems (level + 1) (item :: items) ++ (newLine level ++ ']' :: rest) := by
      rw [skipSpace_newLine, ((hstarts _).append _).skipSpace_eq]
    rw [written, writtenItems_eq_map]
    exact readValue?_array hskip ((hstarts _).append _)
      (readItems?_prettyItems (List.cons_ne_nil item items) h (by omega))

theorem readsBack_object {members : Members} (h : ∀ m ∈ members, ReadsBack m.2) :
    ReadsBack (.object members) := by
  cases members with
  | nil =>
    refine ⟨fun level => .intro (by decide) (by decide), fun level fuel rest hfuel _ => ?_⟩
    obtain ⟨n, rfl, -⟩ := exists_succ_of_le (.intro (by decide) (by decide)) hfuel
    rfl
  | cons member members =>
    refine ⟨fun level => .intro (by decide) (by decide), fun level fuel rest hfuel _ => ?_⟩
    rw [prettyChars_object_cons] at hfuel ⊢
    obtain ⟨n, rfl, hlength⟩ := exists_succ_of_le (.intro (by decide) (by decide)) hfuel
    simp only [List.length_cons, List.length_append] at hlength
    simp only [List.cons_append, List.append_assoc, List.nil_append]
    obtain ⟨start, hstart⟩ :=
      exists_prettyMembers (List.cons_ne_nil member members) (level + 1)
    have hread : readMembers? n (prettyMembers (level + 1) (member :: members) ++
        (newLine level ++ '\x7d' :: rest)) = _ :=
      readMembers?_prettyMembers (List.cons_ne_nil member members) h (by omega)
    rw [written, writtenMembers_eq_map]
    rw [hstart, List.cons_append] at hread ⊢
    refine readValue?_object ?_ hread
    rw [skipSpace_newLine, skipSpace_cons (by decide)]

/-- The text of a plain value is read as its spelling. -/
theorem Plain.readsBack {depth : Nat} {value : Json} (h : value.Plain depth) :
    ReadsBack value := by
  induction h with
  | null => exact readsBack_of_scalar (fun _ => rfl) (by decide) (by decide) fun _ _ => rfl
  | bool b =>
    cases b with
    | false => exact readsBack_of_scalar (fun _ => rfl) (by decide) (by decide) fun _ _ => rfl
    | true => exact readsBack_of_scalar (fun _ => rfl) (by decide) (by decide) fun _ _ => rfl
  | integer => exact readsBack_integer _
  | string s => exact readsBack_string s
  | array _ ih => exact readsBack_array ih
  | object _ _ ih => exact readsBack_object ih

/-- A text that holds one value and nothing behind it is read as this value. -/
theorem read?_of_readValue? {text : String} {value : Written}
    (h : readValue? (2 * text.toList.length + 2) (skipSpace text.toList) = some (value, [])) :
    read? text = some value := by
  rw [read?, h]
  rfl

/-- A text that was written for a plain value is read as the spelling of this value. -/
theorem read?_pretty {depth : Nat} {value : Json} (h : value.Plain depth) :
    read? value.pretty = some value.written := by
  have hread := h.readsBack.reads 0 (2 * (value.prettyChars 0).length + 2) [] (by omega) .nothing
  rw [List.append_nil] at hread
  refine read?_of_readValue? ?_
  rw [pretty, String.toList_ofList, (h.readsBack.starts 0).skipSpace_eq]
  exact hread

/-! ## What the spelling denotes -/

theorem values?_map_written {depth : Nat} {items : List Json}
    (h : ∀ item ∈ items, item.written.value? depth = some item) :
    Written.values? depth (items.map written) = some items := by
  induction items with
  | nil => rfl
  | cons item items ih =>
    rw [List.map_cons, Written.values?, h item List.mem_cons_self,
      ih fun i hi => h i (List.mem_cons_of_mem _ hi)]
    rfl

theorem pairs?_map_written {depth : Nat} {members : Members}
    (h : ∀ m ∈ members, m.2.written.value? depth = some m.2) :
    Written.pairs? depth (members.map fun m => (spelled m.1, written m.2)) = some members := by
  induction members with
  | nil => rfl
  | cons member members ih =>
    rw [List.map_cons, Written.pairs?, text?_spelled, h member List.mem_cons_self,
      ih fun m hm => h m (List.mem_cons_of_mem _ hm)]
    rfl

/-- The spelling of a plain value denotes it. -/
theorem value?_written {depth : Nat} {value : Json} (h : value.Plain depth) :
    value.written.value? depth = some value := by
  induction h with
  | null => rfl
  | bool b => rfl
  | integer hlow hhigh => rw [written, Written.value?, value?_numeral hlow hhigh, Option.map_some]
  | string s => rw [written, Written.value?, text?_spelled, Option.map_some]
  | array _ ih =>
    rw [written, writtenItems_eq_map, Written.value?, values?_map_written ih, Option.map_some]
  | object hkeys _ ih =>
    rw [written, writtenMembers_eq_map, Written.value?, pairs?_map_written ih, Option.map_some,
      Members.ofPairs_of_nodup hkeys]

end ScaleCalls.Json
