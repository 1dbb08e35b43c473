import ScaleCalls.Calls.Policy

/-!
# Command line arguments

Arguments are read from left to right. An option with a value takes it from the same
argument, as in `-mfile`, `-m=file` or `--metadata=file`, or from the next one, which
then may not start with a dash unless it is a dash alone. Every option may be given
once. Other arguments are groups; behind `--` all arguments are. A command is only
recognised where the argument before it is no group.

## Main definitions

- `Options`, `Command`, `Request`
- `Request.ofArguments?` — what the arguments ask for
-/

namespace ScaleCalls

/-- The options of a generation. -/
structure Options where
  config : Option String
  endpoint : Option String
  metadata : Option String
  outDir : Option String
  policy : Option Policy
  dumpMetadata : Option String
  logLevel : Option String
  noCallsContract : Bool
  noCodecLibrary : Bool
  groups : List String
  deriving Repr, DecidableEq

def Options.empty : Options :=
  ⟨none, none, none, none, none, none, none, false, false, []⟩

/-- What is to be done. -/
inductive Command where
  | generate (options : Options)
  /-- Write a file with example settings. -/
  | writeExample (output : String)
  /-- Check a file with settings. -/
  | validate (config : String)
  deriving Repr, DecidableEq

/-- What the arguments ask for. -/
inductive Request where
  | run (command : Command)
  | version
  | help
  deriving Repr, DecidableEq

namespace CommandLine

/-- The options with a value. -/
inductive Key where
  | config | endpoint | metadata | outDir | policy | dumpMetadata | logLevel
  deriving Repr, DecidableEq

/-- The options without a value. -/
inductive Flag where
  | noCallsContract | noCodecLibrary | version | help
  deriving Repr, DecidableEq

def ofLongName? (name : String) : Option (Key ⊕ Flag) :=
  match name with
  | "config" => some (.inl .config)
  | "endpoint" => some (.inl .endpoint)
  | "metadata" => some (.inl .metadata)
  | "out-dir" => some (.inl .outDir)
  | "policy" => some (.inl .policy)
  | "dump-metadata" => some (.inl .dumpMetadata)
  | "log-level" => some (.inl .logLevel)
  | "no-calls-contract" => some (.inr .noCallsContract)
  | "no-codec-library" => some (.inr .noCodecLibrary)
  | "version" => some (.inr .version)
  | "help" => some (.inr .help)
  | _ => none

def ofLetter? (letter : Char) : Option (Key ⊕ Flag) :=
  match letter with
  | 'c' => some (.inl .config)
  | 'e' => some (.inl .endpoint)
  | 'm' => some (.inl .metadata)
  | 'o' => some (.inl .outDir)
  | 'p' => some (.inl .policy)
  | 'V' => some (.inr .version)
  | 'h' => some (.inr .help)
  | _ => none

/-- How an argument reads by itself. -/
inductive Token where
  /-- A long name, and a value behind an equals sign. -/
  | long (name : String) (value : Option String)
  /-- A letter, and what follows it. -/
  | short (letter : Char) (value : Option String)
  /-- The end of all options. -/
  | separator
  | plain (text : String)
  deriving Repr, DecidableEq

/-- The value behind a letter, without an equals sign in front. -/
def attached : List Char → Option String
  | [] => none
  | '=' :: cs => some (String.ofList cs)
  | cs => some (String.ofList cs)

/-- The value behind the first equals sign of a long option. -/
def afterEquals (cs : List Char) : Option String :=
  match cs.dropWhile (· ≠ '=') with
  | [] => none
  | _ :: value => some (String.ofList value)

def Token.ofText (text : String) : Token :=
  match text.toList with
  | ['-', '-'] => .separator
  | '-' :: '-' :: cs => .long (String.ofList (cs.takeWhile (· ≠ '='))) (afterEquals cs)
  | '-' :: letter :: cs => .short letter (attached cs)
  | _ => .plain text

/-- An argument can be the value of the option before it. -/
def isValue (text : String) : Bool :=
  text == "-" || text.toList.head? != some '-'

/-- A path may not be empty. -/
def path? (text : String) : Option String := if text.isEmpty then none else some text

/-- The options with a value for a key that has none yet. -/
def setKey? (options : Options) (key : Key) (value : String) : Option Options :=
  match key with
  | .config =>
    if options.config.isSome then none else do return { options with config := ← path? value }
  | .endpoint =>
    if options.endpoint.isSome then none else some { options with endpoint := value }
  | .metadata =>
    if options.metadata.isSome then none else do return { options with metadata := ← path? value }
  | .outDir =>
    if options.outDir.isSome then none else do return { options with outDir := ← path? value }
  | .policy =>
    if options.policy.isSome then none
    else do return { options with policy := ← Policy.ofText? value }
  | .dumpMetadata =>
    if options.dumpMetadata.isSome then none
    else do return { options with dumpMetadata := ← path? value }
  | .logLevel =>
    if options.logLevel.isSome then none else some { options with logLevel := value }

def addGroup (options : Options) (group : String) : Options :=
  { options with groups := options.groups ++ [group] }

/-- The file that example settings are written to when no other is named. -/
def defaultOutput : String := "palletgen.toml"

/-- The option of a command that knows only one, which takes a path. -/
structure PathOption where
  letter : Char
  name : String
  deriving Repr, DecidableEq

/-- What the arguments of a command say. -/
inductive CommandArguments where
  | path (value : Option String)
  | help
  deriving Repr, DecidableEq

/-- The arguments of a command with one option; `value` has been read before, and
`pending` tells that the argument before was the option without its value. -/
def commandArguments? (option : PathOption) (value : Option String) (pending : Bool) :
    List String → Option CommandArguments
  | [] => if pending then none else some (.path value)
  | text :: rest =>
    if pending then
      if isValue text ∧ !text.isEmpty then commandArguments? option (some text) false rest else none
    else
      let given (attached : Option String) : Option CommandArguments :=
        if value.isSome then none
        else
          match attached with
          | none => commandArguments? option none true rest
          | some path =>
            if path.isEmpty then none else commandArguments? option (some path) false rest
      match Token.ofText text with
      | .separator => if rest.isEmpty then some (.path value) else none
      | .long name attached =>
        if name = option.name then given attached
        else if name = "help" ∧ attached.isNone then some .help else none
      | .short letter attached =>
        if letter = option.letter then given attached else if letter = 'h' then some .help else none
      | .plain _ => none

def commandWords : List String := ["gen-config", "validate", "help"]

def command? (word : String) (arguments : List String) : Option Request :=
  match word with
  | "gen-config" => do
    match ← commandArguments? ⟨'o', "output"⟩ none false arguments with
    | .path output => return .run (.writeExample (output.getD defaultOutput))
    | .help => return .help
  | "validate" => do
    match ← commandArguments? ⟨'c', "config"⟩ none false arguments with
    | .path config => return .run (.validate (← config))
    | .help => return .help
  | _ =>
    match arguments with
    | [] => some .help
    | [word] => if commandWords.contains word then some .help else none
    | _ => none

/-- What the arguments from some place on ask for. `pending` is an option that still
needs its value, and `afterGroup` tells that the argument before was a group. -/
def request? (options : Options) (pending : Option Key) (afterGroup : Bool) :
    List String → Option Request
  | [] => if pending.isSome then none else some (.run (.generate options))
  | text :: rest =>
    match pending with
    | some key =>
      if isValue text then do request? (← setKey? options key text) none false rest else none
    | none =>
      if !afterGroup && commandWords.contains text then command? text rest
      else
        let option : Option (Key ⊕ Flag) → Option String → Option Request
          | some (.inl key), none => request? options (some key) false rest
          | some (.inl key), some value => do
            request? (← setKey? options key value) none false rest
          | some (.inr .noCallsContract), none =>
            if options.noCallsContract then none
            else request? { options with noCallsContract := true } none false rest
          | some (.inr .noCodecLibrary), none =>
            if options.noCodecLibrary then none
            else request? { options with noCodecLibrary := true } none false rest
          | some (.inr .version), none => some .version
          | some (.inr .help), none => some .help
          | _, _ => none
        match Token.ofText text with
        | .separator => some (.run (.generate (rest.foldl addGroup options)))
        | .long name value => option (ofLongName? name) value
        | .short letter value =>
          match ofLetter? letter with
          | some (.inr flag) => option (some (.inr flag)) none
          | known => option known value
        | .plain group => request? (addGroup options group) none true rest

end CommandLine

/-- What the arguments ask for; `none` where they make no sense. -/
def Request.ofArguments? (arguments : List String) : Option Request :=
  CommandLine.request? .empty none false arguments

end ScaleCalls
