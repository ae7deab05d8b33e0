import Parcels.RawText

/-!
# Paths

A path is kept as it was written or joined.  Two paths are equal when their
components are: repeated slashes, a trailing slash and a `.` that does not
come first say nothing.  Paths are ordered component by component, so `a/b`
comes before `a.x`.
-/

namespace Parcels

open RawText (dot slash)

structure Path where
  ofRaw ::
  raw : RawText
  deriving Inhabited, Repr

namespace Path

/-- The path that a text spells. -/
def mk (text : String) : Path :=
  ⟨text⟩

/-- The path as it is shown. -/
def text (path : Path) : String :=
  path.raw.shown

/-- One step of a path.  `root` and `here` occur in first place only. -/
inductive Component where
  | root
  | here
  | up
  | name (raw : RawText)
  deriving DecidableEq, Repr

/-- What stands between the slashes, if only nothing. -/
def segments (path : Path) : List RawText :=
  path.raw.splitOn slash

/-- A segment that says nothing unless it comes first. -/
def isIdle (segment : RawText) : Bool :=
  segment == [] || segment == [dot]

/-- What the start of a path anchors it to, and the segments after that. -/
def splitAnchor : List RawText → Option Component × List RawText
  | [[]] => (none, [])
  | [] :: body => (some .root, body)
  | first :: body =>
      if first = [dot] then (some .here, body) else (none, first :: body)
  | [] => (none, [])

def component? (segment : RawText) : Option Component :=
  if isIdle segment then none
  else if segment = [dot, dot] then some .up
  else some (.name segment)

def components (path : Path) : List Component :=
  let (anchor, body) := splitAnchor path.segments
  anchor.toList ++ body.filterMap component?

instance : BEq Path where
  beq left right := left.components == right.components

def isAbsolute (path : Path) : Bool :=
  path.components.head? == some .root

/-! ## Order -/

def Component.rank : Component → Nat
  | .root => 0
  | .here => 1
  | .up => 2
  | .name _ => 3

def Component.compare : Component → Component → Ordering
  | .name left, .name right => Ord.compare left right
  | left, right => Ord.compare left.rank right.rank

def compareComponents : List Component → List Component → Ordering
  | [], [] => .eq
  | [], _ :: _ => .lt
  | _ :: _, [] => .gt
  | left :: lefts, right :: rights =>
      (Component.compare left right).then (compareComponents lefts rights)

def mayPrecede (left right : Path) : Bool :=
  compareComponents left.components right.components != .gt

/-! ## Building paths -/

/-- The anchor and the segments after it, written out again. -/
def render (anchor : Option Component) (body : List RawText) : Path :=
  match anchor, body with
  | some .root, [] => ⟨[slash]⟩
  | some .root, body => ⟨[slash].intercalate ([] :: body)⟩
  | some _, body => ⟨[slash].intercalate ([dot] :: body)⟩
  | none, body => ⟨[slash].intercalate body⟩

/-- Append with one slash in between, unless the left side is empty or ends in
a slash.  An absolute right side replaces the left. -/
def join (base : Path) (relative : RawText) : Path :=
  if relative.head? = some slash then ⟨relative⟩
  else if base.raw.getLast?.all (· == slash) then ⟨base.raw ++ relative⟩
  else ⟨base.raw ++ slash :: relative⟩

def joinPath (base relative : Path) : Path :=
  base.join relative.raw

def dropTrailingIdle (body : List RawText) : List RawText :=
  (body.reverse.dropWhile isIdle).reverse

/-- The path without its last component; a lone `.` leaves the empty path, the
root and the empty path have no parent. -/
def parent? (path : Path) : Option Path :=
  let (anchor, body) := splitAnchor path.segments
  match dropTrailingIdle body with
  | [] => if anchor = some .here then some ⟨[]⟩ else none
  | kept => some (render anchor (dropTrailingIdle kept.dropLast))

/-- The last component, if it is a name. -/
def fileName? (path : Path) : Option RawText :=
  match path.components.getLast? with
  | some (.name raw) => some raw
  | _ => none

/-! ## Extensions -/

/-- The parts of a name around its last dot. -/
def splitLastDot : RawText → Option (RawText × RawText)
  | [] => none
  | byte :: rest =>
      match splitLastDot rest with
      | some (before, after) => some (byte :: before, after)
      | none => if byte = dot then some ([], rest) else none

/-- Stem and extension of a file name.  A dot in first place belongs to the
stem. -/
def stemAndExtension (name : RawText) : RawText × Option RawText :=
  match splitLastDot name with
  | some (first :: before, after) => (first :: before, some after)
  | _ => (name, none)

def extension? (name : RawText) : Option RawText :=
  (stemAndExtension name).2

def setExtension (name extension : RawText) : RawText :=
  let stem := (stemAndExtension name).1
  if extension = [] then stem else stem ++ dot :: extension

/-- Replace the extension of the last component; an empty extension removes
it.  A path that does not end in a name stays as it is. -/
def withExtension (path : Path) (extension : RawText) : Path :=
  match path.fileName? with
  | none => path
  | some name =>
      let (anchor, body) := splitAnchor path.segments
      render anchor
        ((dropTrailingIdle body).dropLast ++ [setExtension name extension])

/-! ## Relative paths -/

def Component.raw : Component → RawText
  | .root => [slash]
  | .here => [dot]
  | .up => [dot, dot]
  | .name raw => raw

/-- The components after those of `base`, if the path starts with them. -/
def relativeTo? (path base : Path) : Option Path :=
  (base.components.isPrefixOf? path.components).map fun rest =>
    ⟨[slash].intercalate (rest.map Component.raw)⟩

end Path

end Parcels
