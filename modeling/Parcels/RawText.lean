/-!
# Raw texts

Names of files are kept as bytes.  Most of them are the UTF-8 bytes of a text,
but nothing makes them so.
-/

namespace Parcels

/-- A text as the file system keeps it. -/
abbrev RawText := List UInt8

namespace RawText

/-- The UTF-8 bytes of a text. -/
@[coe]
def ofText (text : String) : RawText :=
  text.toList.flatMap String.utf8EncodeChar

instance : Coe String RawText where
  coe := ofText

def slash : UInt8 := '/'.toUInt8

def dot : UInt8 := '.'.toUInt8

/-- The text that the bytes are of, if they are UTF-8. -/
def text? (raw : RawText) : Option String :=
  String.fromUTF8? ⟨raw.toArray⟩

/-! ## Broken texts -/

/-- What a character that was begun waits for: how many bytes, and the bounds
of the next of them. -/
structure Awaited where
  count : Nat
  least : UInt8 := 0x80
  greatest : UInt8 := 0xBF

/-- What follows the first byte of a character of more than one byte. -/
def awaited? (first : UInt8) : Option Awaited :=
  if 0xC2 ≤ first ∧ first ≤ 0xDF then some { count := 1 }
  else if first = 0xE0 then some { count := 2, least := 0xA0 }
  else if first = 0xED then some { count := 2, greatest := 0x9F }
  else if 0xE1 ≤ first ∧ first ≤ 0xEF then some { count := 2 }
  else if first = 0xF0 then some { count := 3, least := 0x90 }
  else if 0xF1 ≤ first ∧ first ≤ 0xF3 then some { count := 3 }
  else if first = 0xF4 then some { count := 3, greatest := 0x8F }
  else none

/-- How many of the bytes go on with a character that was begun. -/
def continued : (count : Nat) → (least greatest : UInt8) → RawText → Nat
  | count + 1, least, greatest, byte :: rest =>
      if least ≤ byte ∧ byte ≤ greatest then 1 + continued count 0x80 0xBF rest
      else 0
  | _, _, _, _ => 0

/-- How many bytes follow the first one in its character, be it broken off. -/
def followers (first : UInt8) (rest : RawText) : Nat :=
  match awaited? first with
  | none => 0
  | some awaited => continued awaited.count awaited.least awaited.greatest rest

/-- The characters after `skip` bytes.  Each that is broken off, and each byte
that begins none, gives way to the replacement character. -/
def repaired : (skip : Nat) → RawText → List Char
  | _, [] => []
  | skip + 1, _ :: rest => repaired skip rest
  | 0, first :: rest =>
      let more := followers first rest
      let chars := ((text? (first :: rest.take more)).map String.toList).getD ['\ufffd']
      chars ++ repaired more rest

/-- The text that is shown for the bytes. -/
def shown (raw : RawText) : String :=
  (text? raw).getD (String.ofList (repaired 0 raw))

/-! ## Bytes of texts -/

theorem toByteArray_eq (text : String) :
    text.toByteArray = ⟨(ofText text).toArray⟩ := by
  rw [← String.utf8Encode_toList]
  exact ByteArray.ext (by simp [ofText, List.utf8Encode])

/-- Bytes are those of a text just when they are read as this text. -/
theorem text?_eq_some_iff {raw : RawText} {text : String} :
    text? raw = some text ↔ raw = ofText text := by
  constructor
  · intro htext
    unfold text? String.fromUTF8? at htext
    split at htext
    · next hvalid =>
      have hbytes : text.toByteArray = ⟨raw.toArray⟩ := by
        rw [← Option.some.inj htext, String.fromUTF8]
      simpa [toByteArray_eq] using hbytes.symm
    · cases htext
  · rintro rfl
    unfold text? String.fromUTF8?
    rw [dif_pos (toByteArray_eq text ▸ text.isValidUTF8)]
    exact congrArg some (String.toByteArray_inj.mp (toByteArray_eq text).symm)

@[simp]
theorem text?_ofText (text : String) : text? (ofText text) = some text :=
  text?_eq_some_iff.mpr rfl

@[simp]
theorem shown_ofText (text : String) : shown (ofText text) = text := by
  simp [shown]

example : shown [0x2E, 0xFF, 0xE2, 0x82, 0x61] = ".\ufffd\ufffda" := by
  decide

end RawText

end Parcels
