import Parcels.Json

/-!
# Reading restricted JSON

Each reader takes the characters that are left and returns what it read with
the characters after it.  Strings have no escapes, an entry list may end with
one comma, and hashes nest at most 128 deep.
-/

namespace Parcels.Json

/-- Space, tab, line feed, form feed and carriage return. -/
def isBlank (char : Char) : Bool :=
  char == ' ' || char == '\t' || char == '\n' || char == '\x0c' || char == '\r'

def skipBlanks (input : List Char) : List Char :=
  input.dropWhile isBlank

def isPlain (char : Char) : Bool :=
  char != '"' && char != '\\'

/-- A quoted string; a backslash may not occur in it. -/
def quoted? : List Char → Option (String × List Char)
  | '"' :: rest =>
      match rest.dropWhile isPlain with
      | '"' :: after => some (String.ofList (rest.takeWhile isPlain), after)
      | _ => none
  | _ => none

/-- One entry, up to the end of its value. -/
def entry? (value? : List Char → Option (Json × List Char))
    (input : List Char) : Option ((String × Json) × List Char) :=
  match quoted? input with
  | none => none
  | some (key, afterKey) =>
      match skipBlanks afterKey with
      | ':' :: afterColon =>
          match value? (skipBlanks afterColon) with
          | none => none
          | some (value, after) => some ((key, value), after)
      | _ => none

/-- The entries of a hash and its closing brace.  Each entry takes at least
one character, so `bound` need not exceed the length of the input. -/
def entries? (value? : List Char → Option (Json × List Char)) :
    (bound : Nat) → List Char → Option (List (String × Json) × List Char)
  | 0, _ => none
  | bound + 1, input =>
      match skipBlanks input with
      | '}' :: after => some ([], after)
      | start =>
          match entry? value? start with
          | none => none
          | some (entry, afterEntry) =>
              match skipBlanks afterEntry with
              | '}' :: after => some ([entry], after)
              | ',' :: more =>
                  match entries? value? bound more with
                  | none => none
                  | some (entries, after) => some (entry :: entries, after)
              | _ => none

/-- A value in which hashes nest at most `depth` deep. -/
def value? : (depth : Nat) → List Char → Option (Json × List Char)
  | _, 'n' :: 'u' :: 'l' :: 'l' :: rest => some (.null, rest)
  | _, 't' :: 'r' :: 'u' :: 'e' :: rest => some (.boolean true, rest)
  | _, 'f' :: 'a' :: 'l' :: 's' :: 'e' :: rest => some (.boolean false, rest)
  | depth + 1, '{' :: rest =>
      match entries? (value? depth) rest.length rest with
      | none => none
      | some (entries, after) => some (.hash entries, after)
  | _, input =>
      match quoted? input with
      | none => none
      | some (text, after) => some (.string text, after)

def maxDepth : Nat := 128

/-- A whole text: one value with blanks around it. -/
def parse? (text : String) : Option Json :=
  match value? maxDepth (skipBlanks text.toList) with
  | none => none
  | some (value, rest) => if (skipBlanks rest).isEmpty then some value else none

end Parcels.Json
