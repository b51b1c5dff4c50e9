/-
Why a file cannot be reached, read or written.
-/

namespace StackAsm

inductive FileFault where
  | missing
  | notDirectory
  | isDirectory
  | nameTooLong
  /-- A path holds a NUL character. -/
  | nulInPath
  /-- The bytes of a text file are not text. -/
  | notText
  /-- A set of sources has nothing under this path. -/
  | unknownSource (path : String)
deriving DecidableEq, Repr

def FileFault.message : FileFault → String
  | .missing => "No such file or directory (os error 2)"
  | .notDirectory => "Not a directory (os error 20)"
  | .isDirectory => "Is a directory (os error 21)"
  | .nameTooLong => "File name too long (os error 36)"
  | .nulInPath => "file name contained an unexpected NUL byte"
  | .notText => "stream did not contain valid UTF-8"
  | .unknownSource path => "no such source: " ++ path

end StackAsm
