import Mathlib.Data.List.TakeWhile
import Parcels.RawText

/-!
# Characters as bytes

A text is kept as the UTF-8 bytes of its characters.  A character below 128 is
its own byte and every other has bytes from 128 on only, so bytes below 128 can
be looked for without regard to where characters start.
-/

namespace Parcels.Text

/-- The bytes of characters, each shown as the character of that value. -/
def bytesOf (characters : List Char) : List Char :=
  (characters.flatMap String.utf8EncodeChar).map Char.ofUInt8

theorem bytesOf_cons (char : Char) (rest : List Char) :
    bytesOf (char :: rest) =
      (String.utf8EncodeChar char).map Char.ofUInt8 ++ bytesOf rest := by
  simp [bytesOf]

theorem length_bytesOf (characters : List Char) :
    (bytesOf characters).length = (String.ofList characters).utf8ByteSize := by
  rw [← String.size_toByteArray, String.toByteArray_ofList]
  simp [bytesOf, List.utf8Encode, ByteArray.size]

theorem toNat_ofUInt8 (value : Nat) :
    (Char.ofUInt8 (UInt8.ofNat value)).toNat = value % 256 := by
  change (UInt8.ofNat value).toUInt32.toNat = value % 256
  simp

theorem bytesOf_cons_of_lt {char : Char} (hsmall : char.toNat < 128)
    (rest : List Char) : bytesOf (char :: rest) = char :: bytesOf rest := by
  have hvalue : char.val.toNat ≤ 127 := Nat.le_of_lt_succ hsmall
  have hsame : Char.ofUInt8 (UInt8.ofNat char.val.toNat) = char := by
    apply Char.toNat_inj.mp
    rw [toNat_ofUInt8, Nat.mod_eq_of_lt (by omega)]
    rfl
  simp only [bytesOf_cons, String.utf8EncodeChar, hvalue, if_true, List.map, hsame,
    List.singleton_append]

/-- A character from 128 on has bytes from 128 on. -/
theorem exists_bytes_of_le {char : Char} (hlarge : 128 ≤ char.toNat) :
    ∃ first others, (String.utf8EncodeChar char).map Char.ofUInt8 = first :: others ∧
      ∀ byte ∈ first :: others, 128 ≤ byte.toNat := by
  have hvalue : ¬ char.val.toNat ≤ 127 := Nat.not_le.mpr hlarge
  simp only [String.utf8EncodeChar, hvalue, if_false]
  split
  · refine ⟨_, _, rfl, ?_⟩
    simp only [List.map, List.forall_mem_cons, toNat_ofUInt8]
    simp
    omega
  · split <;>
    · refine ⟨_, _, rfl, ?_⟩
      simp only [List.map, List.forall_mem_cons, toNat_ofUInt8]
      simp
      omega

theorem bytes_of_lt {char : Char} (hsmall : char.toNat < 128) :
    (String.utf8EncodeChar char).map Char.ofUInt8 = [char] := by
  have hbytes := bytesOf_cons_of_lt hsmall []
  rwa [bytesOf_cons, bytesOf, List.flatMap_nil, List.map_nil, List.append_nil] at hbytes

/-- The bytes of a character behind its first one are from 128 on. -/
theorem exists_further_bytes (char : Char) :
    ∃ first others, (String.utf8EncodeChar char).map Char.ofUInt8 = first :: others ∧
      ∀ byte ∈ others, 128 ≤ byte.toNat := by
  by_cases hsmall : char.toNat < 128
  · exact ⟨char, [], bytes_of_lt hsmall, nofun⟩
  · obtain ⟨first, others, hbytes, hlarge⟩ := exists_bytes_of_le (Nat.not_lt.mp hsmall)
    exact ⟨first, others, hbytes, (List.forall_mem_cons.mp hlarge).2⟩

theorem utf8Size_eq {char : Char} {bytes : List Char}
    (hbytes : (String.utf8EncodeChar char).map Char.ofUInt8 = bytes) :
    char.utf8Size = bytes.length := by
  rw [← hbytes, List.length_map, String.length_utf8EncodeChar]

theorem head?_bytesOf_eq_some_iff {characters : List Char} {byte : Char}
    (hbyte : byte.toNat < 128) :
    (bytesOf characters).head? = some byte ↔ ∃ rest, characters = byte :: rest := by
  cases characters with
  | nil => simp [bytesOf]
  | cons char rest =>
      by_cases hchar : char.toNat < 128
      · simp [bytesOf_cons_of_lt hchar]
      · obtain ⟨first, others, hbytes, hall⟩ := exists_bytes_of_le (Nat.not_lt.mp hchar)
        have hfirst := hall first List.mem_cons_self
        have hne : first ≠ byte := by
          rintro rfl
          omega
        have hne' : char ≠ byte := by
          rintro rfl
          omega
        simp [bytesOf_cons, hbytes, hne, hne']

/-- A test that says one thing of everything from 128 on takes whole characters. -/
theorem takeWhile_bytesOf {test : Char → Bool} {outside : Bool}
    (houtside : ∀ char : Char, 128 ≤ char.toNat → test char = outside)
    (characters : List Char) :
    (bytesOf characters).takeWhile test = bytesOf (characters.takeWhile test) := by
  induction characters with
  | nil => rfl
  | cons char rest ih =>
      by_cases hchar : char.toNat < 128
      · rw [bytesOf_cons_of_lt hchar, List.takeWhile_cons, List.takeWhile_cons]
        split
        · rw [bytesOf_cons_of_lt hchar, ih]
        · rfl
      · have hlarge := Nat.not_lt.mp hchar
        obtain ⟨first, others, hbytes, hall⟩ := exists_bytes_of_le hlarge
        have htests : ∀ byte ∈ first :: others, test byte = outside := fun byte hbyte =>
          houtside byte (hall byte hbyte)
        rw [bytesOf_cons, List.takeWhile_cons, houtside char hlarge, hbytes]
        cases outside with
        | true =>
            rw [List.takeWhile_append_of_pos htests, ih, if_pos rfl, bytesOf_cons, hbytes]
        | false =>
            rw [List.cons_append, List.takeWhile_cons_of_neg
              (by simp [htests first List.mem_cons_self])]
            rfl

theorem length_le_length_bytesOf (characters : List Char) :
    characters.length ≤ (bytesOf characters).length := by
  induction characters with
  | nil => exact Nat.le_refl _
  | cons char rest ih =>
      have hpositive : 0 < (String.utf8EncodeChar char).length := by
        rw [String.length_utf8EncodeChar]
        exact char.utf8Size_pos
      rw [bytesOf_cons, List.length_cons, List.length_append, List.length_map]
      omega

/-! ## Raw texts -/

theorem ofUInt8_eq_dot_iff {byte : UInt8} : Char.ofUInt8 byte = '.' ↔ byte = RawText.dot := by
  constructor
  · intro hchar
    exact UInt8.toNat_inj.mp (congrArg Char.toNat hchar)
  · rintro rfl
    rfl

/-- A text starts with a dot just when its bytes do. -/
theorem head?_ofText_eq_dot_iff {text : String} :
    (RawText.ofText text).head? = some RawText.dot ↔ text.toList.head? = some '.' := by
  have hbytes : (bytesOf text.toList).head? = (RawText.ofText text).head?.map Char.ofUInt8 :=
    List.head?_map
  have hdot : (bytesOf text.toList).head? = some '.' ↔ ∃ rest, text.toList = '.' :: rest :=
    head?_bytesOf_eq_some_iff (by decide)
  rw [hbytes, Option.map_eq_some_iff] at hdot
  simp only [ofUInt8_eq_dot_iff, exists_eq_right] at hdot
  rw [hdot, List.head?_eq_some_iff]

end Parcels.Text
