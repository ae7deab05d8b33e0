import Parcels.Json.Reader

/-!
# Reading restricted JSON from bytes

The reader over characters, as it runs on the bytes of a text.  A cursor knows
how many bytes have been read and how many hashes are open.  Parts of the text
can be taken only between places at which a character starts or the text ends.
-/

namespace Parcels.Json

/-- How far a text has been read. -/
structure Cursor where
  place : Nat := 0
  depth : Nat := 0

namespace Cursor

inductive Stop where
  | refused
  /-- A part of the text was to begin or to end within a character. -/
  | offBoundary
  /-- The bound on a loop was too low. -/
  | unfinished
  deriving DecidableEq, Repr

/-- Reading may move the cursor and stop all the same. -/
abbrev Reading := EStateM Stop Cursor

/-- The bytes of a text from a place on, each shown as the character of that
value. -/
def bytesFrom (text : String) (place : Nat) : List Char :=
  (text.toUTF8.data.toList.drop place).map Char.ofUInt8

/-- The part of a text between two places. -/
def part? (text : String) (start stop : Nat) : Option String :=
  if places : start ≤ stop ∧ String.Pos.Raw.IsValid text ⟨start⟩ ∧
      String.Pos.Raw.IsValid text ⟨stop⟩ then
    some (String.extract (text.pos ⟨start⟩ places.2.1) (text.pos ⟨stop⟩ places.2.2))
  else none

def takePart (text : String) (start stop : Nat) : Reading String :=
  match part? text start stop with
  | some part => return part
  | none => throw .offBoundary

def next? (text : String) : Reading (Option Char) := do
  return (bytesFrom text (← get).place).head?

def advance (count : Nat) : Reading Unit :=
  modify fun cursor => { cursor with place := cursor.place + count }

/-- Advance over all bytes up to the first that fails a test. -/
def advanceWhile (text : String) (test : Char → Bool) : Reading Unit := do
  advance ((bytesFrom text (← get).place).takeWhile test).length

def expect (text : String) (byte : Char) : Reading Unit := do
  if (← next? text) = some byte then advance 1 else throw .refused

/-- Read on with one more open hash, which is closed whatever comes of it. -/
def withinHash {Result : Type} (reading : Reading Result) : Reading Result :=
  fun cursor =>
    match reading { cursor with depth := cursor.depth + 1 } with
    | .ok result after => .ok result { after with depth := after.depth - 1 }
    | .error stop after => .error stop { after with depth := after.depth - 1 }

def readKeyword (text keyword : String) (value : Json) : Reading Json := do
  let rest ← takePart text (← get).place text.utf8ByteSize
  if keyword.toList.isPrefixOf rest.toList then
    advance keyword.utf8ByteSize
    return value
  else throw .refused

def readQuoted (text : String) : Reading String := do
  expect text '"'
  let start := (← get).place
  advanceWhile text isPlain
  if (← next? text) = some '"' then
    let quoted ← takePart text start (← get).place
    advance 1
    return quoted
  else throw .refused

/-- One entry, up to the end of its value. -/
def readEntry (text : String) (readValue : Reading Json) : Reading (String × Json) := do
  let key ← readQuoted text
  advanceWhile text isBlank
  expect text ':'
  advanceWhile text isBlank
  let value ← readValue
  return (key, value)

/-- What may stand behind an entry, up to the closing brace; `more` reads what
follows a comma. -/
def readFurther (text : String) (more : Reading (List (String × Json)))
    (entry : String × Json) : Reading (List (String × Json)) := do
  match ← next? text with
  | some ',' =>
      advance 1
      let entries ← more
      return entry :: entries
  | some '}' =>
      advance 1
      return [entry]
  | _ => throw .refused

/-- The entries of a hash and its closing brace. -/
def readEntries (text : String) (readValue : Reading Json) :
    (bound : Nat) → Reading (List (String × Json))
  | 0 => throw .unfinished
  | bound + 1 => do
      advanceWhile text isBlank
      if (← next? text) = some '}' then
        advance 1
        return []
      let entry ← readEntry text readValue
      advanceWhile text isBlank
      readFurther text (readEntries text readValue bound) entry

/-- A value; `inner` reads the values in the hash that it may be. -/
def readValueWith (text : String) (inner : Reading Json) : Reading Json := do
  match ← next? text with
  | some '"' => return .string (← readQuoted text)
  | some '{' =>
      if maxDepth ≤ (← get).depth then throw .refused
      let entries ← withinHash do
        expect text '{'
        readEntries text inner text.utf8ByteSize
      return .hash entries
  | some 'n' => readKeyword text "null" .null
  | some 't' => readKeyword text "true" (.boolean true)
  | some 'f' => readKeyword text "false" (.boolean false)
  | _ => throw .refused

/-- A value; `levels` bounds how many hashes may still be opened. -/
def readValue (text : String) : (levels : Nat) → Reading Json
  | 0 => readValueWith text (throw .unfinished)
  | levels + 1 => readValueWith text (readValue text levels)

/-- A whole text: one value with blanks around it. -/
def readDocument (text : String) : Reading Json := do
  advanceWhile text isBlank
  let value ← readValue text maxDepth
  advanceWhile text isBlank
  if (← get).place = text.utf8ByteSize then return value else throw .refused

end Cursor

end Parcels.Json
