import Parcels.Json.Reader

/-!
# The grammar of restricted JSON

Which texts stand for which value, apart from any reader.  Blanks may stand
between any two tokens, one comma may follow the last entry of a hash, and a
string is its characters as they stand.  A document is one phrase with blanks
around it in which hashes do not nest too deep.
-/

namespace Parcels.Json

def Blank (written : List Char) : Prop :=
  ∀ char ∈ written, isBlank char = true

/-- A string in quotes, with neither quotes nor backslashes in it. -/
inductive Quoted : String → List Char → Prop where
  | quoted {characters : List Char}
      (plain : ∀ char ∈ characters, char ≠ '"' ∧ char ≠ '\\') :
      Quoted (String.ofList characters) ('"' :: characters ++ ['"'])

section Entries

/-! What stands in a hash, given what stands for a value. -/

variable (Value : Json → List Char → Prop)

/-- A key, a colon and a value, with blanks around each. -/
inductive Entry : String × Json → List Char → Prop where
  | entry {key : String} {value : Json}
      {before written afterKey beforeValue phrase after : List Char}
      (blankBefore : Blank before) (quoted : Quoted key written)
      (blankAfterKey : Blank afterKey) (blankBeforeValue : Blank beforeValue)
      (stands : Value value phrase) (blankAfter : Blank after) :
      Entry (key, value)
        (before ++ written ++ afterKey ++ ':' :: beforeValue ++ phrase ++ after)

/-- One entry or more, with a comma between any two. -/
inductive Entries : List (String × Json) → List Char → Prop where
  | one {entry : String × Json} {written : List Char}
      (entryWritten : Entry Value entry written) : Entries [entry] written
  | more {entry : String × Json} {entries : List (String × Json)}
      {written further : List Char} (entryWritten : Entry Value entry written)
      (furtherWritten : Entries entries further) :
      Entries (entry :: entries) (written ++ ',' :: further)

/-- What stands between the braces of a hash. -/
inductive Inside : List (String × Json) → List Char → Prop where
  | empty {blanks : List Char} (blank : Blank blanks) : Inside [] blanks
  | entries {entries : List (String × Json)} {written : List Char}
      (entriesWritten : Entries Value entries written) : Inside entries written
  | trailingComma {entries : List (String × Json)} {written blanks : List Char}
      (entriesWritten : Entries Value entries written) (blank : Blank blanks) :
      Inside entries (written ++ ',' :: blanks)

end Entries

/-- The text stands for the value. -/
inductive Phrase : Json → List Char → Prop where
  | null : Phrase .null "null".toList
  | booleanTrue : Phrase (.boolean true) "true".toList
  | booleanFalse : Phrase (.boolean false) "false".toList
  | string {text : String} {written : List Char} (quoted : Quoted text written) :
      Phrase (.string text) written
  | hash {entries : List (String × Json)} {written : List Char}
      (inside : Inside Phrase entries written) :
      Phrase (.hash entries) ('{' :: written ++ ['}'])

mutual

/-- How many hashes nest in one another. -/
def nesting : Json → Nat
  | .hash entries => nestingWithin entries + 1
  | .string _ => 0
  | .boolean _ => 0
  | .null => 0

def nestingWithin : List (String × Json) → Nat
  | [] => 0
  | (_, value) :: rest => max (nesting value) (nestingWithin rest)

end

/-- A whole text that stands for the value. -/
def Document (written : List Char) (value : Json) : Prop :=
  ∃ before phrase after, written = before ++ phrase ++ after ∧ Blank before ∧
    Phrase value phrase ∧ Blank after ∧ value.nesting ≤ maxDepth

end Parcels.Json
