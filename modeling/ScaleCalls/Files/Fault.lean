/-!
# Why a path cannot be used

## Main definitions

- `FileFault` — the reasons
- `FileFault.message` — what they say
-/

namespace ScaleCalls

/-- Why a path cannot be used. -/
inductive FileFault where
  | notFound
  | alreadyExists
  | notADirectory
  | isADirectory
  /-- There is no room for what is written. -/
  | noSpace
  /-- A name or the whole path has too many bytes. -/
  | nameTooLong
  /-- The path holds the character with the number zero. -/
  | invalidName
  /-- Any other reason, as the system gives it. -/
  | other (reason : String)
  deriving Repr, DecidableEq

def FileFault.message : FileFault → String
  | notFound => "No such file or directory (os error 2)"
  | alreadyExists => "File exists (os error 17)"
  | notADirectory => "Not a directory (os error 20)"
  | isADirectory => "Is a directory (os error 21)"
  | noSpace => "No space left on device (os error 28)"
  | nameTooLong => "File name too long (os error 36)"
  | invalidName => "file name contained an unexpected NUL byte"
  | other reason => reason

end ScaleCalls
