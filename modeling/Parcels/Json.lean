/-!
# Restricted JSON values

Parcel specs and host data files hold strings, hashes, booleans and `null`
only.  A hash keeps its entries in source order, repeated keys included; a
look-up finds the last entry of a key.
-/

namespace Parcels

inductive Json where
  | string (text : String)
  | hash (entries : List (String × Json))
  | boolean (value : Bool)
  | null
  deriving Inhabited

namespace Json

/-- The kinds of values, as error messages name them. -/
inductive Kind where
  | string
  | hash
  | boolean
  | null
  deriving DecidableEq, Repr

def Kind.label : Kind → String
  | .string => "string"
  | .hash => "hash"
  | .boolean => "boolean"
  | .null => "null"

def kind : Json → Kind
  | .string _ => .string
  | .hash _ => .hash
  | .boolean _ => .boolean
  | .null => .null

/-- The value of the last entry with this key. -/
def lastValue? (entries : List (String × Json)) (key : String) : Option Json :=
  entries.reverse.lookup key

end Json

end Parcels
