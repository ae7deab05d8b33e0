/-!
# Faults in headers

A routine that cannot read on reports the text that remained at the place of
the fault.  The line of the fault follows from the line feeds before it.
-/

namespace Parcels.Header

inductive Cause where
  | unexpectedCharacter
  | expectedIdentifier
  | expectedComponent
  | expectedSemicolon
  | expectedBrace
  | unexpectedWord (word : String)
  | duplicateModifier (word : String)
  | unexpectedInHeader (word : String)
  | classBeforeParcel
  | unterminatedComment
  | unterminatedLiteral
  | unterminatedBody
  | unterminatedBlock
  deriving DecidableEq, Repr

def Cause.message : Cause → String
  | .unexpectedCharacter => "Unexpected character"
  | .expectedIdentifier => "Expected identifier"
  | .expectedComponent => "Expected identifier after '::'"
  | .expectedSemicolon => "Expected ';'"
  | .expectedBrace => "Expected '\x7b'"
  | .unexpectedWord word => "Unexpected '" ++ word ++ "'"
  | .duplicateModifier word => "Duplicate modifier '" ++ word ++ "'"
  | .unexpectedInHeader word =>
      "Unexpected '" ++ word ++ "' in class header"
  | .classBeforeParcel => "Class declared before parcel statement"
  | .unterminatedComment => "Unterminated comment"
  | .unterminatedLiteral => "Unterminated literal"
  | .unterminatedBody => "Unterminated class body"
  | .unterminatedBlock => "Unterminated __C__ block"

structure Fault where
  /-- The text from the place of the fault on. -/
  remaining : List Char
  cause : Cause

def lineFeeds (input : List Char) : Nat :=
  input.count '\n'

/-- The line, counted from one, at which `remaining` starts in `input`. -/
def lineAt (input remaining : List Char) : Nat :=
  1 + lineFeeds input - lineFeeds remaining

structure SyntaxError where
  line : Nat
  cause : Cause
  deriving DecidableEq, Repr

def SyntaxError.message (path : String) (error : SyntaxError) : String :=
  path ++ ":" ++ toString error.line ++ ": " ++ error.cause.message

def Fault.locate (fault : Fault) (input : List Char) : SyntaxError :=
  ⟨lineAt input fault.remaining, fault.cause⟩

end Parcels.Header
