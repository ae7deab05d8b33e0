import Parcels.Class
import Parcels.Header.Body
import Parcels.Header.Word

/-!
# Outlines of headers

The outline of a `.cfh` header is its sequence of parcel statements, class
headers and C blocks.  Class bodies are skipped.  A class belongs to the
nearest parcel statement before it.
-/

namespace Parcels

/-- A top-level declaration of a header. -/
inductive Decl where
  | parcelStatement (name : String)
  | classHeader (parcel : String) (header : ClassHeader)
  | cBlock (code : String)
  deriving DecidableEq, Repr

/-- The parcel in effect after a declaration. -/
def Decl.parcelAfter (before : Option String) : Decl → Option String
  | .parcelStatement name => some name
  | .classHeader .. => before
  | .cBlock _ => before

namespace Header

/-- Read modifiers from the word `first` on, up to and including `class`. -/
def readModifiers (seen : Modifiers) (first : String) (input : List Char) :
    Except Fault (Modifiers × List Char) :=
  match Modifier.ofWord? first with
  | none =>
      if first = "class" then .ok (seen, input)
      else .error ⟨input, .unexpectedWord first⟩
  | some modifier =>
      if hseen : seen.contains modifier = true then
        .error ⟨input, .duplicateModifier first⟩
      else do
        have hfewer := Modifiers.missing_insert_lt (by simpa using hseen)
        let (next, rest) ← identifier input
        readModifiers (seen.insert modifier) next rest
termination_by seen.missing

/-- How many clauses a class header may still take. -/
def openClauses (header : ClassHeader) : Nat :=
  (if header.nickname.isNone then 1 else 0) +
    (if header.parent.isNone then 1 else 0)

/-- Read `nickname` and `inherits` clauses, each at most once, up to the
opening brace of the body. -/
def readClauses (header : ClassHeader) (input : List Char) :
    Except Fault (ClassHeader × List Char) := do
  let start ← skipTrivia input
  if start.head? = some '{' then return (header, start)
  let (clause, rest) := word start
  if hclause : clause = "nickname" ∧ header.nickname.isNone then
    let (nickname, after) ← identifier rest
    have hfewer : openClauses { header with nickname := some nickname } <
        openClauses header := by simp [openClauses, hclause.2]
    readClauses { header with nickname := some nickname } after
  else if hclause : clause = "inherits" ∧ header.parent.isNone then
    let (parent, after) ← className rest
    have hfewer : openClauses { header with parent := some parent } <
        openClauses header := by simp [openClauses, hclause.2]
    readClauses { header with parent := some parent } after
  else if clause = "" then .error ⟨start, .expectedBrace⟩
  else .error ⟨start, .unexpectedInHeader clause⟩
termination_by openClauses header

/-- A class from its first word on, which may be a modifier.  `start` is the
text from that word on. -/
def readClass (parcel : Option String) (start : List Char) (first : String)
    (input : List Char) : Except Fault (Decl × List Char) := do
  let (modifiers, afterModifiers) ← readModifiers {} first input
  match parcel with
  | none => .error ⟨start, .classBeforeParcel⟩
  | some parcel =>
      let (name, afterName) ← className afterModifiers
      let (header, body) ←
        readClauses { name := name, modifiers := modifiers } afterName
      let rest ← skipBody body
      return (.classHeader parcel header, rest)

def readParcelStatement (input : List Char) :
    Except Fault (Decl × List Char) := do
  let (name, afterName) ← identifier input
  match ← skipTrivia afterName with
  | ';' :: rest => return (.parcelStatement name, rest)
  | other => .error ⟨other, .expectedSemicolon⟩

def readItem (parcel : Option String) (start : List Char) :
    Except Fault (Decl × List Char) :=
  let (first, rest) := word start
  if first = "parcel" then readParcelStatement rest
  else if first = blockStart then
    match splitAtMarker? blockEnd.toList rest with
    | some (code, after) => .ok (.cBlock (String.ofList code), after)
    | none => .error ⟨start, .unterminatedBlock⟩
  else if first = "" then .error ⟨start, .unexpectedCharacter⟩
  else readClass parcel start first rest

/-- The declarations of the input.  Each takes at least one character, so
`bound` need not exceed the length of the input. -/
def readItems : (bound : Nat) → (parcel : Option String) → List Char →
    Except Fault (List Decl)
  | 0, _, _ => .ok []
  | bound + 1, parcel, input => do
      let start ← skipTrivia input
      if start.isEmpty then return []
      let (decl, rest) ← readItem parcel start
      let decls ← readItems bound (decl.parcelAfter parcel) rest
      return decl :: decls

def scan (text : String) : Except SyntaxError (List Decl) :=
  let input := text.toList
  (readItems input.length none input).mapError (·.locate input)

end Header

end Parcels
