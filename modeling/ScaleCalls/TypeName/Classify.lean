import ScaleCalls.Text.Blank
import ScaleCalls.Text.Numeral
import ScaleCalls.TypeName.Category
import ScaleCalls.TypeName.Brackets

/-!
# Classification of type names

Which layout a type name announces. Blanks in a name mean nothing and ASCII
letters are compared without case; the element of a container is taken from the
name as it is spelled, with its case.

The rules are tried in this order: well-known wrappers by the last segment of
the name's head, fixed arrays, compact integers, scalars, byte strings, bounded
vectors, vectors, options.

## Main definitions

- `TypeName.classify` — the category of a name
-/

namespace ScaleCalls.TypeName

def fold (cs : List Char) : List Char := cs.map Char.toLower

/-- The head of a folded name: up to the first `<`, behind the last `::`. -/
def head (folded : List Char) : List Char :=
  lastSegment (folded.takeWhile (· ≠ '<'))

/-- Names of addresses, of accounts and of hashes with a known size. -/
def wrapper? (head : List Char) : Option Category :=
  match String.ofList head with
  | "multiaddress" | "lookupsource" | "address" | "accountidlookupof" =>
    some (.primitive .multiAddressId32)
  | "accountid32" | "accountid" => some (.primitive .accountId32)
  | "h160" => some (.fixedBytes 20)
  | "h256" => some (.fixedBytes 32)
  | "h512" => some (.fixedBytes 64)
  | _ => none

/-- The text inside `[` and `]`, when there is any. -/
def bracketed? : List Char → Option (List Char)
  | '[' :: cs =>
    if cs.getLast? = some ']' ∧ 1 < cs.length then some cs.dropLast else none
  | _ => none

/-- The text inside `word<` and `>`, with the word in any case. -/
def generic? (word : String) (exact : List Char) : Option (List Char) :=
  if fold (exact.take word.length) = word.toList then
    match exact.drop word.length with
    | '<' :: cs => if cs.getLast? = some '>' then some cs.dropLast else none
    | _ => none
  else none

/-- `[T;N]` and `[T,N]`: the last top-level delimiter parts element and length.
Bytes are kept apart from other elements. -/
def fixedArray (inner : List Char) : Category :=
  match cutLastTopLevel? (fun c => c == ';' || c == ',') inner with
  | none => .unsupported
  | some (elem, len) =>
    match Text.numeral? Text.limit64 len with
    | none => .unsupported
    | some n =>
      if elem.isEmpty then .unsupported
      else if fold elem = "u8".toList then .fixedBytes n
      else .fixedArray (String.ofList elem) n

/-- The integer behind `Compact<…>`, from the folded text inside. -/
def compactWidth? (inner : List Char) : Option CompactWidth :=
  match String.ofList inner with
  | "u8" => some .u8
  | "u16" => some .u16
  | "u32" | "blocknumber" => some .u32
  | "u64" | "moment" => some .u64
  | "u128" => some .u128
  | _ =>
    if "balance".toList.isSuffixOf inner || "balanceof".toList.isPrefixOf inner then some .u128
    else none

/-- Booleans and integers by name; whatever ends in `balance` is a `u128`. -/
def scalar? (folded : List Char) : Option Primitive :=
  match String.ofList folded with
  | "bool" => some .bool
  | "u8" => some .u8
  | "u16" => some .u16
  | "u32" => some .u32
  | "u64" => some .u64
  | "u128" => some .u128
  | "u256" => some .u256
  | "i8" => some .i8
  | "i16" => some .i16
  | "i32" => some .i32
  | "i64" => some .i64
  | "i128" => some .i128
  | _ => if "balance".toList.isSuffixOf folded then some .u128 else none

def byteString? (folded : List Char) : Option Primitive :=
  match String.ofList folded with
  | "bytes" | "vec<u8>" => some .bytes
  | "string" | "text" | "str" => some .str
  | _ => none

/-- A bound is a numeral, or a numeral in the angle brackets of any word:
`100`, `ConstU32<100>`. -/
def bound? (text : List Char) : Option Nat :=
  match Text.numeral? Text.limit64 text with
  | some n => some n
  | none =>
    match text.dropWhile (· ≠ '<') with
    | '<' :: cs => if cs.getLast? = some '>' then Text.numeral? Text.limit64 cs.dropLast else none
    | _ => none

/-- A bounded vector from the text inside its angle brackets. -/
def boundedVector (inner : List Char) : Category :=
  match splitTopLevel ',' 0 inner with
  | [] => .unsupported
  | elem :: rest =>
    if elem.isEmpty then .unsupported
    else if fold elem = "u8".toList then .primitive .bytes
    else .boundedVector (String.ofList elem) (rest.head?.bind bound?)

def around (container : String → Category) (elem : List Char) : Category :=
  if elem.isEmpty then .unsupported else container (String.ofList elem)

/-- The containers and compact integers that are written with angle brackets. -/
def genericCategory (exact : List Char) : Category :=
  match (generic? "boundedvec" exact).or (generic? "weakboundedvec" exact) with
  | some inner => boundedVector inner
  | none =>
    match generic? "vec" exact with
    | some inner => around .vector inner
    | none =>
      match generic? "option" exact with
      | some inner => around .option inner
      | none => .unsupported

def classifyExact (exact : List Char) : Category :=
  match wrapper? (head (fold exact)) with
  | some category => category
  | none =>
    match bracketed? exact with
    | some inner => fixedArray inner
    | none =>
      match generic? "compact" exact with
      | some inner => ((compactWidth? (fold inner)).map .compact).getD .unsupported
      | none =>
        match (scalar? (fold exact)).or (byteString? (fold exact)) with
        | some kind => .primitive kind
        | none => genericCategory exact

def classify (name : String) : Category :=
  classifyExact (Text.stripBlanks name).toList

end ScaleCalls.TypeName
