import Parcels.Header.Fault
import Parcels.Text.Blank

/-!
# Trivia

Blanks, `//` comments up to the end of their line, and `/* */` comments that
the first `*/` after the opening closes.
-/

namespace Parcels.Header

open Parcels.Text

namespace Trivia

/-- Where a character of trivia stands. -/
inductive Mode where
  | between
  | lineComment
  /-- Inside a comment that was opened where this text starts. -/
  | blockComment (opening : List Char)

def skip : Mode → List Char → Except Fault (List Char)
  | .between, [] => .ok []
  | .between, '/' :: '/' :: rest => skip .lineComment rest
  | .between, '/' :: '*' :: rest =>
      skip (.blockComment ('/' :: '*' :: rest)) rest
  | .between, char :: rest =>
      if isBlank char then skip .between rest else .ok (char :: rest)
  | .lineComment, [] => .ok []
  | .lineComment, '\n' :: rest => skip .between rest
  | .lineComment, _ :: rest => skip .lineComment rest
  | .blockComment opening, [] => .error ⟨opening, .unterminatedComment⟩
  | .blockComment _, '*' :: '/' :: rest => skip .between rest
  | .blockComment opening, _ :: rest => skip (.blockComment opening) rest

end Trivia

def skipTrivia (input : List Char) : Except Fault (List Char) :=
  Trivia.skip .between input

end Parcels.Header
