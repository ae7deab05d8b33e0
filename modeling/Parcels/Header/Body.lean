import Parcels.Header.Fault

/-!
# Class bodies and C blocks

A class body ends where its braces balance.  Braces in comments and in quoted
literals do not count; in a literal a backslash takes the next character with
it and a line feed is not allowed otherwise.  A C block is verbatim text up to
its end marker.
-/

namespace Parcels.Header

namespace Body

/-- Where a character of a class body stands. -/
inductive Mode where
  | code
  | lineComment
  /-- Inside a comment that was opened where this text starts. -/
  | blockComment (opening : List Char)
  /-- Inside a literal that was opened where this text starts. -/
  | literal (quote : Char) (opening : List Char)

/-- Skip to the end of a body whose opening brace starts the text `opening`,
with `deeper` more braces open inside it. -/
def skip (opening : List Char) :
    Mode → (deeper : Nat) → List Char → Except Fault (List Char)
  | .code, _, [] => .error ⟨opening, .unterminatedBody⟩
  | .code, deeper, '/' :: '/' :: rest => skip opening .lineComment deeper rest
  | .code, deeper, '/' :: '*' :: rest =>
      skip opening (.blockComment ('/' :: '*' :: rest)) deeper rest
  | .code, deeper, '{' :: rest => skip opening .code (deeper + 1) rest
  | .code, 0, '}' :: rest => .ok rest
  | .code, deeper + 1, '}' :: rest => skip opening .code deeper rest
  | .code, deeper, '"' :: rest =>
      skip opening (.literal '"' ('"' :: rest)) deeper rest
  | .code, deeper, '\'' :: rest =>
      skip opening (.literal '\'' ('\'' :: rest)) deeper rest
  | .code, deeper, _ :: rest => skip opening .code deeper rest
  | .lineComment, _, [] => .error ⟨opening, .unterminatedBody⟩
  | .lineComment, deeper, '\n' :: rest => skip opening .code deeper rest
  | .lineComment, deeper, _ :: rest => skip opening .lineComment deeper rest
  | .blockComment comment, _, [] => .error ⟨comment, .unterminatedComment⟩
  | .blockComment _, deeper, '*' :: '/' :: rest => skip opening .code deeper rest
  | .blockComment comment, deeper, _ :: rest =>
      skip opening (.blockComment comment) deeper rest
  | .literal _ start, _, [] => .error ⟨start, .unterminatedLiteral⟩
  | .literal _ start, _, '\n' :: _ => .error ⟨start, .unterminatedLiteral⟩
  | .literal _ start, _, ['\\'] => .error ⟨start, .unterminatedLiteral⟩
  | .literal quote start, deeper, '\\' :: _ :: rest =>
      skip opening (.literal quote start) deeper rest
  | .literal quote start, deeper, char :: rest =>
      if char = quote then skip opening .code deeper rest
      else skip opening (.literal quote start) deeper rest

end Body

/-- Skip a class body that starts with its opening brace. -/
def skipBody (input : List Char) : Except Fault (List Char) :=
  Body.skip input .code 0 input.tail

def blockStart : String := "__C__"

def blockEnd : String := "__END_C__"

/-- The text before the first occurrence of `marker` and the text after it. -/
def splitAtMarker? (marker : List Char) :
    List Char → Option (List Char × List Char)
  | [] => none
  | char :: rest =>
      match marker.isPrefixOf? (char :: rest) with
      | some after => some ([], after)
      | none =>
          (splitAtMarker? marker rest).map fun (before, after) =>
            (char :: before, after)

end Parcels.Header
