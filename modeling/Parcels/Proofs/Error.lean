import Parcels.Error

/-!
# What messages quote

A message has what it is about between single quotes.  Around that it is the
same for every text quoted, so it quotes the text in one place.
-/

namespace Parcels

/-- A message but for the text that it quotes. -/
structure Frame where
  before : String
  after : String

def Frame.around (frame : Frame) (text : String) : String :=
  frame.before ++ "'" ++ text ++ "'" ++ frame.after

def Quotes (message text : String) : Prop :=
  ∃ frame : Frame, message = frame.around text

/-- A malformed name or version, as it was written. -/
def Malformed.value : Malformed → String
  | .name _ value => value
  | .version text => text

/-- A malformed text is quoted, whatever it was to be. -/
theorem Malformed.message_quotes (fault : Malformed) : Quotes fault.message fault.value := by
  cases fault with
  | name role value =>
      refine ⟨⟨"Invalid " ++ role.label ++ ": ", ""⟩, ?_⟩
      change "Invalid " ++ role.label ++ ": '" ++ value ++ "'" = _
      simp [Frame.around, Malformed.value, String.append_assoc]
  | version text =>
      refine ⟨⟨"Invalid version string: ", ""⟩, ?_⟩
      change "Invalid version string: '" ++ text ++ "'" = _
      simp [Frame.around, Malformed.value]

end Parcels
