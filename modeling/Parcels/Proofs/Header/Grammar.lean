import Parcels.Header.Outline
import Parcels.Proofs.Text.Bytes

/-!
# The grammar of header outlines

Which texts have which outline, apart from any scanner.  Each relation is
between what is left of a text before a phrase and what is left after it.
Words are as long as they can be, and a comment or a C block ends at the first
place at which it may.
-/

namespace Parcels.Header

/-- The text up to the first occurrence of a marker, and what follows that. -/
structure UpTo (marker text input rest : List Char) : Prop where
  split : input = text ++ marker ++ rest
  first : ∀ earlier later, input = earlier ++ marker ++ later →
    text.length ≤ earlier.length

/-! ## Trivia and words -/

inductive Comment : List Char → List Char → Prop where
  | line {text rest : List Char} (oneLine : '\n' ∉ text)
      (ends : rest = [] ∨ rest.head? = some '\n') :
      Comment ('/' :: '/' :: text ++ rest) rest
  | block {text input rest : List Char} (upTo : UpTo ['*', '/'] text input rest) :
      Comment ('/' :: '*' :: input) rest

/-- Any number of blanks and comments. -/
inductive Trivia : List Char → List Char → Prop where
  | none {rest : List Char} : Trivia rest rest
  | blank {char : Char} {input rest : List Char}
      (blank : Text.isBlank char = true) (more : Trivia input rest) :
      Trivia (char :: input) rest
  | comment {input between rest : List Char} (comment : Comment input between)
      (more : Trivia between rest) : Trivia input rest

/-- A run of word characters that no word character follows. -/
structure Word (text : String) (input rest : List Char) : Prop where
  split : input = text.toList ++ rest
  nonempty : text ≠ ""
  wordChars : ∀ char ∈ text.toList, Name.isWordChar char = true
  maximal : ∀ char ∈ rest.head?, Name.isWordChar char = false

/-- Words joined with `::`. -/
inductive ClassName : String → List Char → List Char → Prop where
  | word {text : String} {input rest : List Char} (word : Word text input rest) :
      ClassName text input rest
  | qualified {text name : String} {input further rest : List Char}
      (word : Word text input (':' :: ':' :: further))
      (more : ClassName name further rest) :
      ClassName (text ++ "::" ++ name) input rest

/-! ## Class headers -/

/-- Modifiers and the word `class`. -/
inductive ModifierWords : List Modifier → List Char → List Char → Prop where
  | classWord {input rest : List Char} (word : Word "class" input rest) :
      ModifierWords [] input rest
  | modifier {modifier : Modifier} {more : List Modifier}
      {input afterWord start rest : List Char}
      (word : Word modifier.word input afterWord) (trivia : Trivia afterWord start)
      (further : ModifierWords more start rest) :
      ModifierWords (modifier :: more) input rest

/-- The clauses for a nickname and a parent, each at most once, up to the brace
that opens the body. -/
inductive Clauses :
    (nickname parent : Option String) → List Char → List Char → Prop where
  | none {input body : List Char} (trivia : Trivia input ('{' :: body)) :
      Clauses none none input ('{' :: body)
  | nickname {nickname : String} {parent : Option String}
      {input start afterWord name afterName body : List Char}
      (trivia : Trivia input start) (word : Word "nickname" start afterWord)
      (triviaName : Trivia afterWord name) (wordName : Word nickname name afterName)
      (more : Clauses .none parent afterName body) :
      Clauses (some nickname) parent input body
  | inherits {nickname : Option String} {parent : String}
      {input start afterWord name afterName body : List Char}
      (trivia : Trivia input start) (word : Word "inherits" start afterWord)
      (triviaName : Trivia afterWord name) (className : ClassName parent name afterName)
      (more : Clauses nickname .none afterName body) :
      Clauses nickname (some parent) input body

/-! ## Class bodies -/

/-- The bytes in a literal.  A backslash takes the next byte with it. -/
inductive LiteralBytes (quote : Char) : List Char → Prop where
  | none : LiteralBytes quote []
  | plain {byte : Char} {bytes : List Char}
      (plain : byte ≠ quote ∧ byte ≠ '\\' ∧ byte ≠ '\n')
      (more : LiteralBytes quote bytes) : LiteralBytes quote (byte :: bytes)
  | escaped {byte : Char} {bytes : List Char} (more : LiteralBytes quote bytes) :
      LiteralBytes quote ('\\' :: byte :: bytes)

/-- A literal, which a quote opens and the same quote closes. -/
inductive Literal : List Char → List Char → Prop where
  | literal {quote : Char} {text rest : List Char} (isQuote : quote = '"' ∨ quote = '\'')
      (bytes : LiteralBytes quote (Text.bytesOf text)) :
      Literal (quote :: text ++ quote :: rest) rest

/-- A brace, a literal or a comment starts here. -/
def Opens : List Char → Prop
  | '/' :: '/' :: _ => True
  | '/' :: '*' :: _ => True
  | char :: _ => char ∈ ['{', '}', '"', '\'']
  | [] => False

/-- The rest of a class body behind an opening brace, with the brace that
closes it. -/
inductive Body : List Char → List Char → Prop where
  | close {rest : List Char} : Body ('}' :: rest) rest
  | nested {input between rest : List Char} (inner : Body input between)
      (more : Body between rest) : Body ('{' :: input) rest
  | comment {input between rest : List Char} (comment : Comment input between)
      (more : Body between rest) : Body input rest
  | literal {input between rest : List Char} (literal : Literal input between)
      (more : Body between rest) : Body input rest
  | other {char : Char} {input rest : List Char} (opensNone : ¬ Opens (char :: input))
      (more : Body input rest) : Body (char :: input) rest

/-! ## Outlines -/

/-- One item of an outline, given the parcel in effect. -/
inductive Item : Option String → Decl → List Char → List Char → Prop where
  | parcelStatement {parcel : Option String} {name : String}
      {input afterWord start afterName rest : List Char}
      (word : Word "parcel" input afterWord) (trivia : Trivia afterWord start)
      (wordName : Word name start afterName) (triviaEnd : Trivia afterName (';' :: rest)) :
      Item parcel (.parcelStatement name) input rest
  | cBlock {parcel : Option String} {code input afterWord rest : List Char}
      (word : Word blockStart input afterWord)
      (upTo : UpTo blockEnd.toList code afterWord rest) :
      Item parcel (.cBlock (String.ofList code)) input rest
  | classHeader {parcel name : String} {nickname parent : Option String}
      {modifiers : List Modifier} {input afterWords start afterName body rest : List Char}
      (words : ModifierWords modifiers input afterWords) (distinct : modifiers.Nodup)
      (trivia : Trivia afterWords start) (className : ClassName name start afterName)
      (clauses : Clauses nickname parent afterName ('{' :: body)) (bodyEnds : Body body rest) :
      Item (some parcel)
        (.classHeader parcel
          { name := name, nickname := nickname, parent := parent,
            modifiers := modifiers.foldl Modifiers.insert {} })
        input rest

/-- A whole text.  Every class belongs to the parcel of the nearest parcel
statement before it. -/
inductive Outline : Option String → List Decl → List Char → Prop where
  | none {parcel : Option String} {input : List Char} (trivia : Trivia input []) :
      Outline parcel [] input
  | item {parcel : Option String} {decl : Decl} {decls : List Decl}
      {input start rest : List Char} (trivia : Trivia input start)
      (item : Item parcel decl start rest)
      (more : Outline (decl.parcelAfter parcel) decls rest) :
      Outline parcel (decl :: decls) input

end Parcels.Header
