import Parcels.Json.Cursor
import Parcels.Proofs.Action
import Parcels.Proofs.Json.Reading
import Parcels.Proofs.Text.Bytes

/-!
# Reading bytes as reading characters

A cursor that stands where a character starts sees the bytes of the characters
that are left.  All tests of the reader are on bytes below 128, and those stand
for themselves, so it moves from one such place to another, and what it reads
is what the reader of characters does.
-/

namespace Parcels.Json.Cursor

open Text (bytesOf length_bytesOf length_le_length_bytesOf bytesOf_cons_of_lt
  head?_bytesOf_eq_some_iff takeWhile_bytesOf)

/-! ## Tests on bytes -/

theorem isBlank_of_le {char : Char} (hlarge : 128 ≤ char.toNat) : isBlank char = false := by
  have hne : ∀ other : Char, other.toNat < 128 → char ≠ other := by
    rintro other hother rfl
    omega
  simp only [isBlank, Bool.or_eq_false_iff, beq_eq_false_iff_ne]
  exact ⟨⟨⟨⟨hne _ (by decide), hne _ (by decide)⟩, hne _ (by decide)⟩, hne _ (by decide)⟩,
    hne _ (by decide)⟩

theorem isPlain_of_le {char : Char} (hlarge : 128 ≤ char.toNat) : isPlain char = true := by
  refine isPlain_iff.mpr ⟨?_, ?_⟩ <;>
  · rintro rfl
    exact absurd hlarge (by decide)

/-! ## Parts of a text -/

theorem part?_append (before part after : String) :
    part? (before ++ part ++ after) before.utf8ByteSize (before ++ part).utf8ByteSize =
      some part := by
  have hstart : String.Pos.Raw.IsValid (before ++ part ++ after) ⟨before.utf8ByteSize⟩ :=
    String.Pos.Raw.isValid_iff_exists_append.mpr
      ⟨before, part ++ after, String.append_assoc, rfl⟩
  have hstop : String.Pos.Raw.IsValid (before ++ part ++ after)
      ⟨(before ++ part).utf8ByteSize⟩ :=
    String.Pos.Raw.isValid_iff_exists_append.mpr ⟨before ++ part, after, rfl, rfl⟩
  unfold part?
  rw [dif_pos ⟨by simp [String.utf8ByteSize_append], hstart, hstop⟩]
  refine congrArg some (String.toByteArray_inj.mp ?_)
  have hbytes : (before ++ part ++ after).toByteArray =
      before.toByteArray ++ (part.toByteArray ++ after.toByteArray) := by
    rw [String.toByteArray_append, String.toByteArray_append, ByteArray.append_assoc]
  calc (String.extract ((before ++ part ++ after).pos ⟨before.utf8ByteSize⟩ hstart)
        ((before ++ part ++ after).pos ⟨(before ++ part).utf8ByteSize⟩ hstop)).toByteArray
      = (before.toByteArray ++ (part.toByteArray ++ after.toByteArray)).extract
          (before.toByteArray.size + 0) (before.toByteArray.size + part.toByteArray.size) := by
        rw [String.toByteArray_extract, hbytes]
        simp only [String.offset_pos, String.utf8ByteSize_append, String.size_toByteArray,
          Nat.add_zero]
    _ = (part.toByteArray ++ after.toByteArray).extract 0 part.toByteArray.size :=
        ByteArray.extract_append_size_add
    _ = part.toByteArray := ByteArray.extract_append_eq_left rfl

/-! ## Places in a text -/

/-- The cursor stands before the characters that are left, with that many
hashes open. -/
def At (text : String) (rest : List Char) (depth : Nat) (cursor : Cursor) : Prop :=
  cursor.depth = depth ∧
    ∃ before, text = before ++ String.ofList rest ∧ cursor.place = before.utf8ByteSize

/-- The reader of bytes does from any such place what the reader of characters
does with the characters that are left. -/
def Follows {Result : Type} (text : String) (reading : Reading Result)
    (reader : List Char → Option (Result × List Char)) (depth : Nat)
    (input : List Char) : Prop :=
  ∀ cursor, At text input depth cursor →
    Ends (reading cursor)
      (fun result after =>
        ∃ rest, reader input = some (result, rest) ∧ At text rest depth after)
      (fun stop after => stop = .refused ∧ reader input = none ∧ after.depth = depth)

section Steps

variable {text : String} {input : List Char} {depth : Nat} {cursor : Cursor}

theorem bytesFrom_of_at (hat : At text input depth cursor) :
    bytesFrom text cursor.place = bytesOf input := by
  obtain ⟨_, before, rfl, hplace⟩ := hat
  rw [hplace, ← String.size_toByteArray]
  simp [bytesFrom, String.toUTF8_eq_toByteArray, bytesOf, List.utf8Encode]

theorem next?_of_at (hat : At text input depth cursor) :
    next? text cursor = .ok (bytesOf input).head? cursor := by
  rw [← bytesFrom_of_at hat]
  rfl

theorem At.advance {taken rest : List Char} (hat : At text (taken ++ rest) depth cursor) :
    At text rest depth { cursor with place := cursor.place + (bytesOf taken).length } := by
  obtain ⟨hdepth, before, htext, hplace⟩ := hat
  refine ⟨hdepth, before ++ String.ofList taken, ?_, ?_⟩
  · rw [htext, String.ofList_append, String.append_assoc]
  · rw [length_bytesOf, String.utf8ByteSize_append, hplace]

theorem advanceWhile_of_at {test : Char → Bool} {outside : Bool}
    (houtside : ∀ char : Char, 128 ≤ char.toNat → test char = outside)
    (hat : At text input depth cursor) :
    advanceWhile text test cursor = .ok ()
      { cursor with place := cursor.place + (bytesOf (input.takeWhile test)).length } := by
  rw [← takeWhile_bytesOf houtside, ← bytesFrom_of_at hat]
  rfl

theorem At.dropWhile (hat : At text input depth cursor) (test : Char → Bool) :
    At text (input.dropWhile test) depth
      { cursor with place := cursor.place + (bytesOf (input.takeWhile test)).length } := by
  apply At.advance
  rwa [List.takeWhile_append_dropWhile]

theorem At.advance_one {byte : Char} {rest : List Char} (hbyte : byte.toNat < 128)
    (hat : At text (byte :: rest) depth cursor) :
    At text rest depth { cursor with place := cursor.place + 1 } := by
  have hsplit : At text ([byte] ++ rest) depth cursor := hat
  have hnext := hsplit.advance
  rwa [bytesOf_cons_of_lt hbyte] at hnext

theorem takePart_of_at {taken rest : List Char}
    (hat : At text (taken ++ rest) depth cursor) (between : Cursor) :
    takePart text cursor.place (cursor.place + (bytesOf taken).length) between =
      .ok (String.ofList taken) between := by
  obtain ⟨_, before, rfl, hplace⟩ := hat
  rw [takePart, hplace, length_bytesOf, ← String.utf8ByteSize_append, String.ofList_append,
    ← String.append_assoc, part?_append]
  rfl

theorem expect_of_at {byte : Char} {rest : List Char} (hbyte : byte.toNat < 128)
    (hat : At text (byte :: rest) depth cursor) :
    expect text byte cursor = .ok () { cursor with place := cursor.place + 1 } := by
  have hnext := (head?_bytesOf_eq_some_iff hbyte).mpr ⟨rest, rfl⟩
  simp only [expect, bind, EStateM.bind, next?_of_at hat, hnext, if_true]
  rfl

theorem expect_of_ne {byte : Char} (hbyte : byte.toNat < 128)
    (hat : At text input depth cursor) (hne : ∀ rest, input ≠ byte :: rest) :
    expect text byte cursor = .error .refused cursor := by
  have hnext : (bytesOf input).head? ≠ some byte := fun hhead =>
    let ⟨rest, hrest⟩ := (head?_bytesOf_eq_some_iff hbyte).mp hhead
    hne rest hrest
  simp only [expect, bind, EStateM.bind, next?_of_at hat, hnext, if_false]
  rfl

end Steps

/-! ## Strings and entries -/

section Entries

variable {text : String} {depth : Nat}

theorem readQuoted_follows (input : List Char) :
    Follows text (readQuoted text) quoted? depth input := by
  intro cursor hat
  by_cases hopen : ∃ rest, input = '"' :: rest
  · obtain ⟨rest, rfl⟩ := hopen
    have hquote : ('"' : Char).toNat < 128 := by decide
    have hstart := hat.advance_one hquote
    have hstop := hstart.dropWhile isPlain
    refine Ends.bind_ok (expect_of_at hquote hat) (Ends.bind_ok rfl ?_)
    refine Ends.bind_ok (advanceWhile_of_at (fun _ => isPlain_of_le) hstart)
      (Ends.bind_ok (next?_of_at hstop) ?_)
    by_cases hclose : ∃ after, rest.dropWhile isPlain = '"' :: after
    · obtain ⟨after, hafter⟩ := hclose
      rw [if_pos ((head?_bytesOf_eq_some_iff hquote).mpr ⟨after, hafter⟩)]
      rw [← List.takeWhile_append_dropWhile (p := isPlain) (l := rest)] at hstart
      refine Ends.bind_ok rfl (Ends.bind_ok (takePart_of_at hstart _) ?_)
      rw [hafter] at hstop
      exact ⟨after, by simp [quoted?, hafter], hstop.advance_one hquote⟩
    · rw [if_neg fun hhead => hclose ((head?_bytesOf_eq_some_iff hquote).mp hhead)]
      refine ⟨rfl, ?_, hstop.1⟩
      rw [quoted?]
      split
      · next after hafter => exact absurd ⟨after, hafter⟩ hclose
      · rfl
  · have hne : ∀ rest, input ≠ '"' :: rest := fun rest hrest => hopen ⟨rest, hrest⟩
    refine Ends.bind_error (expect_of_ne (by decide) hat hne) ⟨rfl, ?_, hat.1⟩
    unfold quoted?
    split
    · next rest => exact absurd rfl (hne rest)
    · rfl

theorem advanceBlanks_of_at {input : List Char} {cursor : Cursor}
    (hat : At text input depth cursor) :
    ∃ after, advanceWhile text isBlank cursor = .ok () after ∧
      At text (skipBlanks input) depth after :=
  ⟨_, advanceWhile_of_at (fun _ => isBlank_of_le) hat, hat.dropWhile isBlank⟩

variable {readValue : Reading Json} {value? : List Char → Option (Json × List Char)}

theorem Follows.andThen {Middle Result : Type} {reading : Reading Middle}
    {reader : List Char → Option (Middle × List Char)} {input : List Char}
    {second : Middle → Reading Result} {onResult : Result → Cursor → Prop}
    {onError : Stop → Cursor → Prop} {cursor : Cursor}
    (hfollows : Follows text reading reader depth input) (hat : At text input depth cursor)
    (hnone : ∀ between, reader input = none → between.depth = depth →
      onError .refused between)
    (hsome : ∀ middle rest between, reader input = some (middle, rest) →
      At text rest depth between → Ends (second middle between) onResult onError) :
    Ends ((reading >>= second) cursor) onResult onError := by
  refine Ends.bind ((hfollows cursor hat).mono ?_ ?_)
  · rintro middle between ⟨rest, hread, hbetween⟩
    exact hsome middle rest between hread hbetween
  · rintro stop between ⟨rfl, hread, hdepth⟩
    exact hnone between hread hdepth

theorem readEntry_follows
    (hvalue : ∀ input, Follows text readValue value? depth input) (input : List Char) :
    Follows text (readEntry text readValue) (fun start => entry? value? start) depth input := by
  intro cursor hat
  refine (readQuoted_follows input).andThen hat ?_ fun key afterKey _ hkey hafterKey => ?_
  · exact fun between hkey hdepth => ⟨rfl, by simp [hkey, entry?], hdepth⟩
  obtain ⟨_, hskip, hcolon⟩ := advanceBlanks_of_at hafterKey
  refine Ends.bind_ok hskip ?_
  by_cases hopen : ∃ rest, skipBlanks afterKey = ':' :: rest
  · obtain ⟨rest, hrest⟩ := hopen
    rw [hrest] at hcolon
    refine Ends.bind_ok (expect_of_at (by decide) hcolon) ?_
    obtain ⟨_, hskip, hstart⟩ := advanceBlanks_of_at (hcolon.advance_one (by decide))
    refine Ends.bind_ok hskip ((hvalue _).andThen hstart ?_ ?_)
    · exact fun between hread hdepth => ⟨rfl, by simp [hkey, hrest, hread, entry?], hdepth⟩
    · intro value after between hread hafter
      exact ⟨after, by simp [hkey, hrest, hread, entry?], hafter⟩
  · have hne : ∀ rest, skipBlanks afterKey ≠ ':' :: rest := fun rest hrest =>
      hopen ⟨rest, hrest⟩
    refine Ends.bind_error (expect_of_ne (by decide) hcolon hne) ⟨rfl, ?_, hcolon.1⟩
    simp only [hkey, entry?]

/-- What the reader of characters makes of what may stand behind an entry. -/
def further? (more? : List Char → Option (List (String × Json) × List Char))
    (entry : String × Json) : List Char → Option (List (String × Json) × List Char)
  | '}' :: after => some ([entry], after)
  | ',' :: rest =>
      match more? rest with
      | none => none
      | some (entries, after) => some (entry :: entries, after)
  | _ => none

theorem readFurther_follows {more : Reading (List (String × Json))}
    {more? : List Char → Option (List (String × Json) × List Char)} {input : List Char}
    (hmore : ∀ rest, input = ',' :: rest → Follows text more more? depth rest)
    (entry : String × Json) :
    Follows text (readFurther text more entry) (further? more? entry) depth input := by
  intro cursor hat
  refine Ends.bind_ok (next?_of_at hat) ?_
  generalize hhead : (bytesOf input).head? = head
  split
  · obtain ⟨rest, rfl⟩ := (head?_bytesOf_eq_some_iff (by decide)).mp hhead
    refine Ends.bind_ok rfl
      ((hmore rest rfl).andThen (hat.advance_one (by decide)) ?_ ?_)
    · exact fun _ hread hdepth => ⟨rfl, by simp [further?, hread], hdepth⟩
    · exact fun _ after _ hread hafter => ⟨after, by simp [further?, hread], hafter⟩
  · obtain ⟨after, rfl⟩ := (head?_bytesOf_eq_some_iff (by decide)).mp hhead
    exact Ends.bind_ok rfl ⟨after, rfl, hat.advance_one (by decide)⟩
  · next hcomma hbrace =>
    refine ⟨rfl, ?_, hat.1⟩
    unfold further?
    split
    · exact absurd (hhead.symm.trans ((head?_bytesOf_eq_some_iff (by decide)).mpr ⟨_, rfl⟩))
        hbrace
    · exact absurd (hhead.symm.trans ((head?_bytesOf_eq_some_iff (by decide)).mpr ⟨_, rfl⟩))
        hcomma
    · rfl

theorem entries?_of_no_entry {bound : Nat} {input : List Char}
    (hopen : ∀ after, skipBlanks input ≠ '}' :: after)
    (hentry : entry? value? (skipBlanks input) = none) :
    entries? value? bound input = none := by
  cases bound with
  | zero => rfl
  | succ bound =>
      rw [entries?]
      split
      · next after hclose => exact absurd hclose (hopen after)
      · rw [hentry]

theorem entries?_succ_of_entry {bound : Nat} {input afterEntry : List Char}
    {entry : String × Json} (hopen : ∀ after, skipBlanks input ≠ '}' :: after)
    (hentry : entry? value? (skipBlanks input) = some (entry, afterEntry)) :
    entries? value? (bound + 1) input =
      further? (entries? value? bound) entry (skipBlanks afterEntry) := by
  rw [entries?]
  split
  · next after hclose => exact absurd hclose (hopen after)
  · simp only [hentry]
    generalize skipBlanks afterEntry = left
    unfold further?
    split
    · rfl
    · rfl
    · simp

theorem exists_succ_of_ne_nil {bound : Nat} {input : List Char}
    (hbound : input.length ≤ bound) (hne : input ≠ []) : ∃ inner, bound = inner + 1 := by
  have hlength := List.length_pos_iff.mpr hne
  exact Nat.exists_eq_succ_of_ne_zero (by omega)

/-- `bound` has to allow for one round more than there are entries. -/
theorem readEntries_follows {Value : Json → List Char → Prop}
    (hreads : Reads value? Value)
    (hvalue : ∀ input, Follows text readValue value? depth input)
    {bound bound' : Nat} {input : List Char} (hbound : input.length < bound)
    (hbound' : input.length ≤ bound') :
    Follows text (readEntries text readValue bound) (entries? value? bound') depth input := by
  induction bound generalizing bound' input with
  | zero => omega
  | succ bound ih =>
      intro cursor hat
      obtain ⟨_, hskip, hstart⟩ := advanceBlanks_of_at hat
      refine Ends.bind_ok hskip (Ends.bind_ok (next?_of_at hstart) ?_)
      by_cases hclose : ∃ after, skipBlanks input = '}' :: after
      · obtain ⟨after, hafter⟩ := hclose
        obtain ⟨_, rfl⟩ := exists_succ_of_ne_nil hbound' (by rintro rfl; cases hafter)
        rw [if_pos ((head?_bytesOf_eq_some_iff (by decide)).mpr ⟨after, hafter⟩)]
        rw [hafter] at hstart
        exact ⟨after, entries?_succ_eq_some_iff.mpr (.inl ⟨rfl, hafter⟩),
          hstart.advance_one (by decide)⟩
      · have hopen : ∀ after, skipBlanks input ≠ '}' :: after := fun after hafter =>
          hclose ⟨after, hafter⟩
        rw [if_neg fun hhead => hclose ((head?_bytesOf_eq_some_iff (by decide)).mp hhead)]
        refine (readEntry_follows hvalue _).andThen hstart ?_
          fun entry afterEntry between hentry hafterEntry => ?_
        · exact fun _ hentry hdepth => ⟨rfl, entries?_of_no_entry hopen hentry, hdepth⟩
        · obtain ⟨_, rfl⟩ := exists_succ_of_ne_nil hbound' (by rintro rfl; cases hentry)
          obtain ⟨_, hskip, hnext⟩ := advanceBlanks_of_at hafterEntry
          refine Ends.bind_ok hskip ?_
          rw [entries?_succ_of_entry hopen hentry]
          refine readFurther_follows (fun rest hcomma => ?_) entry _ hnext
          obtain ⟨_, written, _, rfl⟩ :=
            (entryRead_iff hreads).mp ⟨afterEntry, hentry, hcomma⟩
          simp only [List.length_append, List.length_cons] at hbound hbound'
          exact ih (by omega) (by omega)

end Entries

/-! ## Values -/

section Values

variable {text : String} {depth : Nat}

theorem At.utf8ByteSize {input : List Char} {cursor : Cursor}
    (hat : At text input depth cursor) :
    text.utf8ByteSize = cursor.place + (bytesOf input).length := by
  obtain ⟨_, before, rfl, hplace⟩ := hat
  rw [String.utf8ByteSize_append, length_bytesOf, hplace]

/-- A keyword and what it stands for. -/
def keyword? (keyword : String) (value : Json) (input : List Char) :
    Option (Json × List Char) :=
  if keyword.toList.isPrefixOf input then some (value, input.drop keyword.length) else none

theorem readKeyword_follows (keyword : String) (value : Json) (input : List Char) :
    Follows text (readKeyword text keyword value) (keyword? keyword value) depth input := by
  intro cursor hat
  have hwhole : At text (input ++ []) depth cursor := by rwa [List.append_nil]
  have htake := takePart_of_at hwhole cursor
  rw [← hat.utf8ByteSize] at htake
  refine Ends.bind_ok rfl (Ends.bind_ok htake ?_)
  rw [String.toList_ofList, keyword?]
  split
  · next hprefix =>
    obtain ⟨rest, rfl⟩ := List.isPrefixOf_iff_prefix.mp hprefix
    have hnext := hat.advance
    rw [length_bytesOf, String.ofList_toList] at hnext
    refine Ends.bind_ok rfl ⟨rest, ?_, hnext⟩
    rw [← String.length_toList, List.drop_left]
  · exact ⟨rfl, rfl, hat.1⟩

theorem withinHash_ends {Result : Type} {reading : Reading Result} {cursor : Cursor}
    {onResult : Result → Cursor → Prop} {onError : Stop → Cursor → Prop}
    (hends : Ends (reading { cursor with depth := cursor.depth + 1 })
      (fun result after => onResult result { after with depth := after.depth - 1 })
      (fun stop after => onError stop { after with depth := after.depth - 1 })) :
    Ends (withinHash reading cursor) onResult onError := by
  unfold withinHash
  split <;> rename_i hrun <;> rw [hrun] at hends <;> exact hends

theorem value?_keyword {first : Char} {keyword : String} {value : Json}
    (hkeyword : (first, keyword, value) ∈ [('n', "null", Json.null),
      ('t', "true", .boolean true), ('f', "false", .boolean false)])
    (levels : Nat) (rest : List Char) :
    value? levels (first :: rest) = keyword? keyword value (first :: rest) := by
  simp only [List.mem_cons, List.not_mem_nil, or_false, Prod.mk.injEq] at hkeyword
  unfold keyword?
  split
  · next hprefix =>
    obtain ⟨after, hafter⟩ := List.isPrefixOf_iff_prefix.mp hprefix
    rw [← hafter]
    obtain ⟨rfl, rfl, rfl⟩ | ⟨rfl, rfl, rfl⟩ | ⟨rfl, rfl, rfl⟩ := hkeyword <;>
    · cases levels <;> rfl
  · next hprefix =>
    unfold value?
    obtain ⟨rfl, rfl, rfl⟩ | ⟨rfl, rfl, rfl⟩ | ⟨rfl, rfl, rfl⟩ := hkeyword <;>
    · split <;> simp_all [quoted?]

theorem value?_brace (levels : Nat) (rest : List Char) :
    value? (levels + 1) ('{' :: rest) =
      (entries? (value? levels) rest.length rest).map fun found =>
        (.hash found.1, found.2) := by
  rw [value?]
  cases entries? (value? levels) rest.length rest <;> rfl

theorem value?_eq_none {levels : Nat} {input : List Char}
    (hfirst : ∀ first rest, input = first :: rest → first ∉ ['"', '{', 'n', 't', 'f']) :
    value? levels input = none := by
  unfold value?
  split
  · simp at hfirst
  · simp at hfirst
  · simp at hfirst
  · simp at hfirst
  · have hquoted : quoted? input = none := by
      unfold quoted?
      split
      · simp at hfirst
      · rfl
    simp only [hquoted]

theorem keyword_follows {first : Char} {keyword : String} {value : Json}
    (hkeyword : (first, keyword, value) ∈ [('n', "null", Json.null),
      ('t', "true", .boolean true), ('f', "false", .boolean false)])
    (levels : Nat) (rest : List Char) :
    Follows text (readKeyword text keyword value) (value? levels) depth (first :: rest) := by
  intro cursor hat
  rw [value?_keyword hkeyword]
  exact readKeyword_follows keyword value _ cursor hat

theorem readHash_follows {below : Nat} {inner : Reading Json}
    (hinner : ∀ input, Follows text inner (value? below) (depth + 1) input)
    (rest : List Char) :
    Follows text
      (withinHash do
        expect text '{'
        readEntries text inner text.utf8ByteSize)
      (fun _ => entries? (value? below) rest.length rest) depth ('{' :: rest) := by
  intro cursor hat
  have hdeeper : At text ('{' :: rest) (depth + 1)
      { cursor with depth := cursor.depth + 1 } := ⟨by simp [hat.1], hat.2⟩
  have hlength := length_le_length_bytesOf ('{' :: rest)
  have hsize := hat.utf8ByteSize
  simp only [List.length_cons] at hlength
  have hentries := readEntries_follows (reads_value? below) hinner
    (show rest.length < text.utf8ByteSize by omega) (Nat.le_refl rest.length) _
    (hdeeper.advance_one (by decide))
  refine withinHash_ends (Ends.bind_ok (expect_of_at (by decide) hdeeper)
    (hentries.mono ?_ ?_))
  · rintro entries after ⟨left, hread, hafter⟩
    exact ⟨left, hread, by simp [hafter.1], hafter.2⟩
  · rintro stop after ⟨rfl, hread, hdepth⟩
    exact ⟨rfl, hread, by simp [hdepth]⟩

theorem readValueWith_follows {levels : Nat} {inner : Reading Json}
    (hlevels : levels + depth = maxDepth)
    (hinner : ∀ below, levels = below + 1 → ∀ input,
      Follows text inner (value? below) (depth + 1) input) (input : List Char) :
    Follows text (readValueWith text inner) (value? levels) depth input := by
  intro cursor hat
  refine Ends.bind_ok (next?_of_at hat) ?_
  generalize hhead : (bytesOf input).head? = head
  split
  · obtain ⟨rest, rfl⟩ := (head?_bytesOf_eq_some_iff (by decide)).mp hhead
    refine (readQuoted_follows _).andThen hat ?_ fun quoted after _ hquoted hafter => ?_
    · exact fun _ hquoted hdepth => ⟨rfl, by rw [value?_quote, hquoted]; rfl, hdepth⟩
    · exact ⟨after, by rw [value?_quote, hquoted]; rfl, hafter⟩
  · obtain ⟨rest, rfl⟩ := (head?_bytesOf_eq_some_iff (by decide)).mp hhead
    refine Ends.bind_ok rfl ?_
    rw [hat.1]
    cases levels with
    | zero =>
        rw [if_pos (by omega)]
        exact ⟨rfl, rfl, hat.1⟩
    | succ below =>
        rw [if_neg (by omega)]
        refine (readHash_follows (hinner below rfl) rest).andThen hat ?_
          fun entries after _ hread hafter => ?_
        · exact fun _ hread hdepth => ⟨rfl, by rw [value?_brace, hread]; rfl, hdepth⟩
        · exact ⟨after, by rw [value?_brace, hread]; rfl, hafter⟩
  · obtain ⟨rest, rfl⟩ := (head?_bytesOf_eq_some_iff (by decide)).mp hhead
    exact keyword_follows (by simp) levels rest cursor hat
  · obtain ⟨rest, rfl⟩ := (head?_bytesOf_eq_some_iff (by decide)).mp hhead
    exact keyword_follows (by simp) levels rest cursor hat
  · obtain ⟨rest, rfl⟩ := (head?_bytesOf_eq_some_iff (by decide)).mp hhead
    exact keyword_follows (by simp) levels rest cursor hat
  · next hquote hbrace hnull htrue hfalse =>
    refine ⟨rfl, value?_eq_none ?_, hat.1⟩
    rintro first rest rfl hfirst
    have hsmall : ∀ byte ∈ ['"', '{', 'n', 't', 'f'], byte.toNat < 128 := by simp
    have hbyte : head = some first :=
      hhead ▸ (head?_bytesOf_eq_some_iff (hsmall first hfirst)).mpr ⟨rest, rfl⟩
    simp only [List.mem_cons, List.not_mem_nil, or_false] at hfirst
    obtain rfl | rfl | rfl | rfl | rfl := hfirst
    · exact hquote hbyte
    · exact hbrace hbyte
    · exact hnull hbyte
    · exact htrue hbyte
    · exact hfalse hbyte

theorem readValue_follows {levels : Nat} (hlevels : levels + depth = maxDepth)
    (input : List Char) :
    Follows text (readValue text levels) (value? levels) depth input := by
  induction levels generalizing depth input with
  | zero => exact readValueWith_follows hlevels (fun below hbelow => by cases hbelow) input
  | succ levels ih =>
      refine readValueWith_follows hlevels ?_ input
      rintro below hbelow
      cases hbelow
      exact fun input => ih (by omega) input

end Values

/-- A text is read whole or refused, with no hash left open. -/
theorem readDocument_ends (text : String) :
    Ends (readDocument text {})
      (fun value after => parse? text = some value ∧ after.depth = 0)
      (fun stop after => stop = .refused ∧ parse? text = none ∧ after.depth = 0) := by
  have hat : At text text.toList 0 {} := ⟨rfl, "", by simp, rfl⟩
  obtain ⟨_, hskip, hstart⟩ := advanceBlanks_of_at hat
  refine Ends.bind_ok hskip ((readValue_follows rfl _).andThen hstart ?_ ?_)
  · exact fun _ hread hdepth => ⟨rfl, by rw [parse?, hread], hdepth⟩
  · intro value rest between hread hrest
    obtain ⟨after, hskip, hend⟩ := advanceBlanks_of_at hrest
    refine Ends.bind_ok hskip (Ends.bind_ok rfl ?_)
    have hplace : after.place = text.utf8ByteSize ↔ skipBlanks rest = [] := by
      have hlength := length_le_length_bytesOf (skipBlanks rest)
      rw [hend.utf8ByteSize]
      constructor
      · intro hsame
        exact List.length_eq_zero_iff.mp (by omega)
      · intro hnil
        simp [hnil, bytesOf]
    split
    · next hsame => exact ⟨by simp [parse?, hread, hplace.mp hsame], hend.1⟩
    · next hdiffer =>
      have hleft : skipBlanks rest ≠ [] := fun hnil => hdiffer (hplace.mpr hnil)
      exact ⟨rfl, by simp [parse?, hread, hleft], hend.1⟩

/-- A text is read as a value just when it is a document for that value.  Reading
it byte by byte comes to the same, whatever the text: no part of it is taken from
within a character, and every hash that was opened has been closed. -/
theorem parse?_reads_documents (text : String) :
    (∀ value, parse? text = some value ↔ Document text.toList value) ∧
      Ends (readDocument text {})
        (fun value after => parse? text = some value ∧ after.depth = 0)
        (fun stop after => stop = .refused ∧ parse? text = none ∧ after.depth = 0) :=
  ⟨fun _ => parse?_eq_some_iff, readDocument_ends text⟩

end Parcels.Json.Cursor
