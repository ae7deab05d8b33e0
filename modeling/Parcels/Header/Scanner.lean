import Parcels.Header.Outline
import Parcels.Json.Cursor

/-!
# Scanning headers from bytes

The scanner of outlines, as it runs on the bytes of a text.  A cursor knows how
many bytes have been passed and in which line it is.  It only ever moves
forward by a number of bytes, and every place that it has been at is kept.
-/

namespace Parcels.Header.Scanner

open Json.Cursor (bytesFrom part?)

/-- How far a text has been scanned. -/
structure Cursor where
  place : Nat := 0
  line : Nat := 1
  deriving DecidableEq, Repr

/-- The cursor, and where it was before, last place first. -/
structure Track where
  cursor : Cursor := {}
  passed : List Cursor := []

inductive Stop where
  | syntaxError (error : SyntaxError)
  /-- A part of the text was to begin or to end within a character. -/
  | offBoundary
  /-- The cursor was to go on from behind the end of the text. -/
  | pastEnd
  /-- A round of a loop was to be followed by another from the same place. -/
  | idle
  /-- The bound on a loop was too low. -/
  | unfinished
  deriving DecidableEq, Repr

/-- Scanning may move the cursor and stop all the same. -/
abbrev Scanning := EStateM Stop Track

/-- How many bytes characters take up. -/
def byteLength (characters : List Char) : Nat :=
  (String.ofList characters).utf8ByteSize

/-! ## Moving -/

def place : Scanning Nat :=
  return (← get).cursor.place

def line : Scanning Nat :=
  return (← get).cursor.line

/-- Move forward, at most to the end of the text, and count the lines. -/
def advance (text : String) (count : Nat) : Scanning Unit := do
  let track ← get
  let start := track.cursor.place
  let stop := min (start + count) text.utf8ByteSize
  if stop < start then throw .pastEnd
  let lineFeeds := ((bytesFrom text start).take (stop - start)).count '\n'
  set { cursor := ⟨stop, track.cursor.line + lineFeeds⟩
        passed := track.cursor :: track.passed : Track }

def takePart (text : String) (start stop : Nat) : Scanning (List Char) :=
  match part? text start stop with
  | some part => return part.toList
  | none => throw .offBoundary

/-- The characters from the cursor on. -/
def rest (text : String) : Scanning (List Char) := do
  takePart text (← place) text.utf8ByteSize

/-- The byte at the cursor. -/
def peek (text : String) : Scanning (Option Char) := do
  return (bytesFrom text (← place)).head?

def failAt {Result : Type} (line : Nat) (cause : Cause) : Scanning Result :=
  throw (.syntaxError ⟨line, cause⟩)

def fail {Result : Type} (cause : Cause) : Scanning Result := do
  failAt (← line) cause

def expect (text : String) (byte : Char) (cause : Cause) : Scanning Unit := do
  if (← peek text) = some byte then advance text 1 else fail cause

/-! ## Loops -/

/-- What a round of a loop comes to. -/
inductive Round (Value Result : Type) where
  | again (value : Value)
  | done (result : Result)

/-- Do one round after the other until one is the last. -/
def rounds {Value Result : Type} (round : Value → Scanning (Round Value Result)) :
    (bound : Nat) → Value → Scanning Result
  | 0, _ => throw .unfinished
  | bound + 1, value => do
      let start ← place
      match ← round value with
      | .done result => return result
      | .again next =>
          if start < (← place) then rounds round bound next else throw .idle

/-- A loop over the text.  Each round but the last takes a byte at least. -/
def loop {Value Result : Type} (text : String)
    (round : Value → Scanning (Round Value Result)) (value : Value) : Scanning Result :=
  rounds round (text.utf8ByteSize + 1) value

/-! ## Trivia, words and class names -/

/-- Skip a block comment from its opening on. -/
def skipBlockComment (text : String) : Scanning Unit := do
  let opening ← line
  let inner ← takePart text ((← place) + 2) text.utf8ByteSize
  match splitAtMarker? ['*', '/'] inner with
  | some (comment, _) => advance text (byteLength comment + 4)
  | none => failAt opening .unterminatedComment

/-- Blanks and perhaps a comment. -/
def triviaRound (text : String) : Unit → Scanning (Round Unit Unit)
  | () => do
      let start ← rest text
      let trimmed := start.dropWhile Text.isBlank
      advance text (byteLength start - byteLength trimmed)
      match trimmed with
      | '/' :: '/' :: _ =>
          advance text (byteLength (trimmed.takeWhile (· != '\n')))
          return .again ()
      | '/' :: '*' :: _ =>
          skipBlockComment text
          return .again ()
      | _ => return .done ()

def skipTrivia (text : String) : Scanning Unit :=
  loop text (triviaRound text) ()

/-- The word at the cursor, perhaps empty. -/
def word (text : String) : Scanning String := do
  let _ ← rest text
  let start ← place
  let length := ((bytesFrom text start).takeWhile Name.isWordChar).length
  advance text length
  return String.ofList (← takePart text start (start + length))

def identifier (text : String) : Scanning String := do
  skipTrivia text
  let start ← line
  let found ← word text
  if found = "" then failAt start .expectedIdentifier else return found

/-- A further component of a class name, if there is one. -/
def componentRound (text : String) : Unit → Scanning (Round Unit Unit)
  | () => do
      match ← rest text with
      | ':' :: ':' :: _ =>
          advance text 2
          let start ← line
          let found ← word text
          if found = "" then failAt start .expectedComponent else return .again ()
      | _ => return .done ()

def className (text : String) : Scanning String := do
  skipTrivia text
  let start ← place
  let _ ← identifier text
  loop text (componentRound text) ()
  return String.ofList (← takePart text start (← place))

/-! ## Class headers -/

/-- A modifier that has been read, or the word `class`. -/
def modifierRound (text : String) :
    Modifiers × String → Scanning (Round (Modifiers × String) Modifiers)
  | (seen, first) =>
      match Modifier.ofWord? first with
      | none =>
          if first = "class" then return .done seen else fail (.unexpectedWord first)
      | some modifier => do
          if seen.contains modifier = true then fail (.duplicateModifier first)
          else
            let next ← identifier text
            return .again (seen.insert modifier, next)

def clauseRound (text : String) (header : ClassHeader) :
    Scanning (Round ClassHeader ClassHeader) := do
  skipTrivia text
  if (← peek text) = some '{' then return .done header
  else
    let start ← line
    let clause ← word text
    if clause = "nickname" ∧ header.nickname.isNone then
      let nickname ← identifier text
      return .again { header with nickname := some nickname }
    else if clause = "inherits" ∧ header.parent.isNone then
      let parent ← className text
      return .again { header with parent := some parent }
    else if clause = "" then failAt start .expectedBrace
    else failAt start (.unexpectedInHeader clause)

/-! ## Class bodies and C blocks -/

/-- How many bytes stand before the quote that closes a literal.  A backslash
takes the next byte with it. -/
def literalLength? (quote : Char) : List Char → Option Nat
  | [] => none
  | ['\\'] => none
  | '\\' :: _ :: bytes => (literalLength? quote bytes).map (· + 2)
  | byte :: bytes =>
      if byte = '\n' then none
      else if byte = quote then some 0
      else (literalLength? quote bytes).map (· + 1)

/-- Skip a literal from its opening quote on. -/
def skipLiteral (text : String) (quote : Char) : Scanning Unit := do
  let start ← line
  let _ ← rest text
  match literalLength? quote (bytesFrom text ((← place) + 1)) with
  | some length => advance text (length + 2)
  | none => failAt start .unterminatedLiteral

/-- Go on in a class body with that many braces open. -/
def bodyRound (text : String) (opening : Nat) : Nat → Scanning (Round Nat Unit)
  | 0 => return .done ()
  | deeper + 1 => do
      skipTrivia text
      match ← peek text with
      | none => failAt opening .unterminatedBody
      | some '{' =>
          advance text 1
          return .again (deeper + 2)
      | some '}' =>
          advance text 1
          return .again deeper
      | some byte =>
          if byte = '"' ∨ byte = '\'' then skipLiteral text byte
          else advance text (((← rest text).head?.map Char.utf8Size).getD 1)
          return .again (deeper + 1)

def skipBody (text : String) : Scanning Unit := do
  let opening ← line
  expect text '{' .expectedBrace
  loop text (bodyRound text opening) 1

/-- The rest of a C block that starts in line `opening`. -/
def cBlock (text : String) (opening : Nat) : Scanning String := do
  let inner ← rest text
  match splitAtMarker? blockEnd.toList inner with
  | some (code, _) =>
      let start ← place
      advance text (byteLength code + blockEnd.utf8ByteSize)
      return String.ofList (← takePart text start (start + byteLength code))
  | none => failAt opening .unterminatedBlock

/-! ## Outlines -/

def readParcelStatement (text : String) : Scanning Decl := do
  let name ← identifier text
  skipTrivia text
  expect text ';' .expectedSemicolon
  return .parcelStatement name

/-- A class whose first word stands in line `start`. -/
def readClass (text : String) (parcel : Option String) (start : Nat) (first : String) :
    Scanning Decl := do
  let modifiers ← loop text (modifierRound text) ({}, first)
  match parcel with
  | none => failAt start .classBeforeParcel
  | some parcel =>
      let name ← className text
      let header ← loop text (clauseRound text) { name := name, modifiers := modifiers }
      skipBody text
      return .classHeader parcel header

def readItem (text : String) (parcel : Option String) : Scanning Decl := do
  let start ← line
  let first ← word text
  if first = "parcel" then readParcelStatement text
  else if first = blockStart then return .cBlock (← cBlock text start)
  else if first = "" then failAt start .unexpectedCharacter
  else readClass text parcel start first

/-- One more declaration behind those read, given the parcel in effect. -/
def itemRound (text : String) :
    List Decl × Option String → Scanning (Round (List Decl × Option String) (List Decl))
  | (decls, parcel) => do
      skipTrivia text
      if text.utf8ByteSize ≤ (← place) then return .done decls
      else
        let decl ← readItem text parcel
        return .again (decls ++ [decl], decl.parcelAfter parcel)

def scan (text : String) : Scanning (List Decl) :=
  loop text (itemRound text) ([], none)

end Parcels.Header.Scanner
