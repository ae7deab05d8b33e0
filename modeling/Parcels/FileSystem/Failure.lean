/-!
# Failures of the file system

The reasons for which a file or a directory cannot be read, in the words of
the system.
-/

namespace Parcels.FileSystem

inductive Failure where
  | notFound
  | notADirectory
  | isADirectory
  | nameTooLong
  | notUtf8
  deriving DecidableEq, Repr

def Failure.message : Failure → String
  | .notFound => "No such file or directory (os error 2)"
  | .notADirectory => "Not a directory (os error 20)"
  | .isADirectory => "Is a directory (os error 21)"
  | .nameTooLong => "File name too long (os error 36)"
  | .notUtf8 => "stream did not contain valid UTF-8"

end Parcels.FileSystem
