import Parcels.Header.Trivia
import Parcels.Name

/-!
# Words and class names

A word is a maximal run of ASCII letters, digits and underscores.  A class
name is one or more words joined by `::` without trivia in between.
-/

namespace Parcels.Header

/-- The word at the start of the input, perhaps empty, and what follows it. -/
def word (input : List Char) : String × List Char :=
  (String.ofList (input.takeWhile Name.isWordChar),
    input.dropWhile Name.isWordChar)

/-- A word that is not empty, after trivia. -/
def identifier (input : List Char) : Except Fault (String × List Char) := do
  let start ← skipTrivia input
  if (word start).1 = "" then .error ⟨start, .expectedIdentifier⟩
  else .ok (word start)

/-- The rest of a class name once its first character has been read. -/
def nameTail : List Char → Except Fault (List Char × List Char)
  | [] => .ok ([], [])
  | [':', ':'] => .error ⟨[], .expectedComponent⟩
  | ':' :: ':' :: first :: rest =>
      if Name.isWordChar first then do
        let (tail, after) ← nameTail rest
        return (':' :: ':' :: first :: tail, after)
      else .error ⟨first :: rest, .expectedComponent⟩
  | char :: rest =>
      if Name.isWordChar char then do
        let (tail, after) ← nameTail rest
        return (char :: tail, after)
      else .ok ([], char :: rest)

def className (input : List Char) : Except Fault (String × List Char) := do
  match ← skipTrivia input with
  | [] => .error ⟨[], .expectedIdentifier⟩
  | first :: rest =>
      if Name.isWordChar first then do
        let (tail, after) ← nameTail rest
        return (String.ofList (first :: tail), after)
      else .error ⟨first :: rest, .expectedIdentifier⟩

end Parcels.Header
