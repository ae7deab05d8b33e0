import Parcels.Name

/-!
# Versions

A version is written `v` and decimal numbers below 2^32 joined by dots.
Versions compare number by number; numbers that are not written count as zero,
so `v1` and `v1.0.0` are equal.  The text is kept as it was written.
-/

namespace Parcels

structure Version where
  text : String
  numbers : List Nat
  numbers_ne_nil : numbers ≠ []
  deriving DecidableEq

namespace Version

/-- The version of a parcel that declares none. -/
def zero : Version := ⟨"v0", [0], by simp⟩

instance : Inhabited Version := ⟨zero⟩

def digitsValue (digits : List Char) : Nat :=
  digits.foldl (fun value digit => 10 * value + (digit.toNat - '0'.toNat)) 0

/-- One number of a version: a nonempty run of digits, of any length, whose
value fits in 32 bits. -/
def number? (digits : List Char) : Option Nat :=
  if !digits.isEmpty && digits.all Char.isDigit then
    if digitsValue digits < UInt32.size then some (digitsValue digits) else none
  else none

def parse (text : String) : Except Malformed Version :=
  match text.toList with
  | 'v' :: body =>
      match (body.splitOn '.').mapM number? with
      | some (first :: others) => .ok ⟨text, first :: others, by simp⟩
      | _ => .error (.version text)
  | _ => .error (.version text)

def major (version : Version) : Nat :=
  version.numbers.head version.numbers_ne_nil

def dropTrailingZeros : List Nat → List Nat
  | [] => []
  | first :: others =>
      match dropTrailingZeros others with
      | [] => if first = 0 then [] else [first]
      | kept => first :: kept

/-- The numbers up to the last one that is not zero. -/
def significant (version : Version) : List Nat :=
  dropTrailingZeros version.numbers

instance : BEq Version where
  beq left right := left.significant == right.significant

/-- Lexicographic order of number sequences that go on with zeros. -/
def compareNumbers : List Nat → List Nat → Ordering
  | [], right => if right.all (· == 0) then .eq else .lt
  | left, [] => if left.all (· == 0) then .eq else .gt
  | leftFirst :: left, rightFirst :: right =>
      (compare leftFirst rightFirst).then (compareNumbers left right)

instance : Ord Version where
  compare left right := compareNumbers left.numbers right.numbers

def isBelow (left right : Version) : Bool :=
  compare left right == .lt

def mayPrecede (left right : Version) : Bool :=
  compare left right != .gt

/-! ## Hashing -/

/-- What takes in the data of the values that it hashes. -/
structure Hasher (State : Type) where
  takeLength : State → Nat → State
  takeNumbers : State → List Nat → State

/-- Hand a version to a hasher: first how many numbers are significant, then
these. -/
def feed {State : Type} (hasher : Hasher State) (state : State) (version : Version) : State :=
  hasher.takeNumbers (hasher.takeLength state version.significant.length)
    version.significant

def mixingHasher : Hasher UInt64 where
  takeLength state length := mixHash state (hash length)
  takeNumbers state numbers := mixHash state (hash numbers)

instance : Hashable Version where
  hash := feed mixingHasher 7

end Version

end Parcels
