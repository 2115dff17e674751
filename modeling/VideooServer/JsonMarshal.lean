import VideooServer.JsonText

/-!
# Go's encoding of strings in JSON

The text that json.Marshal writes for a string: the characters that JSON or
HTML treats specially are escaped, and bytes that are not UTF-8 are replaced.
A string that is well formed UTF-8 is read back as it was.
-/

namespace VideooServer.JsonMarshal

open ByteText Utf8Text JsonText

/-- Lower case hexadecimal digit. -/
def hexDigit (n : ℕ) : UInt8 := if n < 10 then .ofNat (48 + n) else .ofNat (87 + n)

/-- An ASCII byte that is written as it stands. -/
def Safe (b : UInt8) : Prop :=
  0x20 ≤ b ∧ b ≠ byte '\\' ∧ b ≠ byte '"' ∧ b ≠ byte '<' ∧ b ≠ byte '>' ∧ b ≠ byte '&'

instance (b : UInt8) : Decidable (Safe b) := inferInstanceAs (Decidable (_ ∧ _))

/-- The escape of an ASCII byte, behind its backslash. -/
def escapeTail (b : UInt8) : Bytes :=
  if b = byte '\\' ∨ b = byte '"' then [b]
  else if b = 10 then ascii "n"
  else if b = 13 then ascii "r"
  else ascii "u00" ++ [hexDigit (b.toNat / 16), hexDigit (b.toNat % 16)]

/-- The line separator U+2028. -/
def lineSeparator : Bytes := [0xE2, 0x80, 0xA8]

/-- The paragraph separator U+2029. -/
def paragraphSeparator : Bytes := [0xE2, 0x80, 0xA9]

/-- What a rune outside ASCII is written as. -/
def runeText (r : Bytes) : Bytes :=
  if r = lineSeparator then ascii "\\u2028"
  else if r = paragraphSeparator then ascii "\\u2029"
  else r

/-- The text of a string between its quotes. -/
def marshalText : Bytes → Bytes
  | [] => []
  | b :: t =>
    if b < 0x80 then
      if Safe b then b :: marshalText t
      else byte '\\' :: (escapeTail b ++ marshalText t)
    else
      match _h : decodeRune (b :: t) with
      | none => ascii "\\ufffd" ++ marshalText t
      | some (r, u) => runeText r ++ marshalText u
termination_by s => s.length
decreasing_by
  all_goals simp only [List.length_cons]
  · omega
  · omega
  · omega
  · obtain ⟨he, hr⟩ := decodeRune_spec _h
    have hl := congrArg List.length he
    rw [List.length_append, List.length_cons] at hl
    rcases hr with ⟨c, rfl, -⟩ | ⟨hr, -⟩
    · simp only [List.length_cons, List.length_nil] at hl
      omega
    · omega

variable {s t : Bytes} {b : UInt8}

theorem marshalText_nil : marshalText [] = [] := by rw [marshalText]

/-- A safe ASCII byte stands for itself. -/
theorem marshalText_safe (hb : b < 0x80) (h : Safe b) (t : Bytes) :
    marshalText (b :: t) = b :: marshalText t := by
  rw [marshalText, if_pos hb, if_pos h]

/-- Another ASCII byte is escaped. -/
theorem marshalText_escape (hb : b < 0x80) (h : ¬Safe b) (t : Bytes) :
    marshalText (b :: t) = byte '\\' :: (escapeTail b ++ marshalText t) := by
  rw [marshalText, if_pos hb, if_neg h]

/-- Beyond ASCII one rune is encoded at a time. -/
theorem marshalText_rune {r u : Bytes} (hb : ¬b < 0x80) (h : decodeRune (b :: t) = some (r, u)) :
    marshalText (b :: t) = runeText r ++ marshalText u := by
  rw [marshalText, if_neg hb]
  split
  · next h' =>
    rw [h] at h'
    cases h'
  · next h' =>
    rw [h] at h'
    obtain ⟨rfl, rfl⟩ := Prod.mk.inj (Option.some.inj h')
    rfl

/-- A property of the ASCII bytes, checked on each of them. -/
theorem forall_ascii {P : UInt8 → Prop} (h : ∀ n < 128, P (UInt8.ofNat n)) (hb : b < 0x80) :
    P b := by
  have hn := h b.toNat (UInt8.lt_iff_toNat_lt.mp hb)
  rwa [UInt8.ofNat_toNat] at hn

/-- Hexadecimal digits are read back. -/
theorem hexValue_hexDigit : ∀ n < 16, hexValue (hexDigit n) = some n := by decide

/-- The escape of a byte is read as the byte. -/
theorem escape_escapeTail (hb : b < 0x80) (t : Bytes) :
    escape (escapeTail b ++ t) = some ([b], escapeTail b, t) := by
  unfold escapeTail
  split_ifs with hquote hline hreturn
  · refine escape_letter ?_ t
    rcases hquote with rfl | rfl <;> decide
  · rw [hline]
    exact escape_letter (by decide) t
  · rw [hreturn]
    exact escape_letter (by decide) t
  · have hlt : b.toNat < 128 := UInt8.lt_iff_toNat_lt.mp hb
    have hunit : codeUnit (byte '0') (byte '0') (hexDigit (b.toNat / 16))
        (hexDigit (b.toNat % 16)) = some b.toNat := by
      have hzero : hexValue (byte '0') = some 0 := by decide
      simp only [codeUnit, hzero, hexValue_hexDigit _ (show b.toNat / 16 < 16 by omega),
        hexValue_hexDigit _ (show b.toNat % 16 < 16 by omega), Option.bind_some, Option.map_some]
      congr 1
      omega
    have hrune : encodeRune b.toNat = [b] := by
      rw [encodeRune, if_pos hlt, UInt8.ofNat_toNat]
    have hescape := escape_unit hunit (by omega) t
    rw [hrune] at hescape
    exact hescape

/-- The separators are escaped, and every other rune is written as it stands. -/
theorem runeText_cases (r : Bytes) : (∃ u < 0xD800, ∃ h1 h2 h3 h4,
      runeText r = byte '\\' :: byte 'u' :: [h1, h2, h3, h4] ∧ codeUnit h1 h2 h3 h4 = some u ∧
        encodeRune u = r) ∨ runeText r = r := by
  unfold runeText
  split_ifs with hline hparagraph
  · rw [hline]
    exact Or.inl ⟨0x2028, by decide, byte '2', byte '0', byte '2', byte '8', by decide, by decide,
      by decide⟩
  · rw [hparagraph]
    exact Or.inl ⟨0x2029, by decide, byte '2', byte '0', byte '2', byte '9', by decide, by decide,
      by decide⟩
  · exact Or.inr rfl

/-- A safe byte is read as it stands. -/
theorem literal_of_safe (h : Safe b) : Literal b := ⟨h.2.2.1, h.2.1, h.1⟩

/-- A well formed string is read back up to its closing quote. -/
theorem scanString_marshalText (hs : validUtf8 s = true) (t : Bytes) :
    scanString (marshalText s ++ byte '"' :: t) = some (s, t) := by
  refine rune_induction (P := fun s => scanString (marshalText s ++ byte '"' :: t) = some (s, t))
    ?_ ?_ ?_ hs
  · rw [marshalText_nil, List.nil_append, scanString_quote]
  · intro b u hb ih
    by_cases hsafe : Safe b
    · rw [marshalText_safe hb hsafe, List.cons_append,
        scanString_literal (literal_of_safe hsafe), ih]
      rfl
    · rw [marshalText_escape hb hsafe, List.cons_append, List.append_assoc,
        scanString_escape (escape_escapeTail hb _), ih]
      rfl
  · intro b u r v hb hd ih
    obtain ⟨he, hr⟩ := decodeRune_spec hd
    rw [marshalText_rune hb hd, List.append_assoc, he]
    rcases runeText_cases r with ⟨n, hn, h1, h2, h3, h4, htext, hunit, hrune⟩ | htext
    · have hescape := escape_unit hunit hn (marshalText v ++ byte '"' :: t)
      rw [hrune] at hescape
      rw [htext]
      simp only [List.cons_append, List.nil_append]
      rw [scanString_escape hescape, ih]
      rfl
    · have hhigh : ∀ c ∈ r, Literal c := by
        rcases hr with ⟨c, rfl, hc⟩ | ⟨-, hc⟩
        · exact absurd (by rw [(List.cons.inj he).1]; exact hc) hb
        · exact fun c hm => literal_of_high (hc c hm)
      rw [htext, scanString_append hhigh, ih]
      rfl

/-- Escapes are ASCII. -/
theorem escapeTail_ascii (hb : b < 0x80) : ∀ c ∈ escapeTail b, c < 0x80 :=
  forall_ascii (P := fun b => ∀ c ∈ escapeTail b, c < 0x80) (by decide +kernel) hb

/-- A rune is encoded as well formed UTF-8. -/
theorem validUtf8_runeText {r u : Bytes} (h : decodeRune (b :: t) = some (r, u)) (x : Bytes) :
    validUtf8 (runeText r ++ x) = validUtf8 x := by
  unfold runeText
  split_ifs
  · exact validUtf8_ascii_append (by decide) x
  · exact validUtf8_ascii_append (by decide) x
  · exact validUtf8_append_rune h x

/-- The text of a well formed string is well formed. -/
theorem validUtf8_marshalText (hs : validUtf8 s = true) : validUtf8 (marshalText s) = true := by
  refine rune_induction (P := fun s => validUtf8 (marshalText s) = true) ?_ ?_ ?_ hs
  · rw [marshalText_nil]
    rfl
  · intro b u hb ih
    by_cases hsafe : Safe b
    · rw [marshalText_safe hb hsafe, validUtf8_cons_ascii hb, ih]
    · rw [marshalText_escape hb hsafe, validUtf8_cons_ascii (by decide),
        validUtf8_ascii_append (escapeTail_ascii hb), ih]
  · intro b u r v hb hd ih
    rw [marshalText_rune hb hd, validUtf8_runeText hd, ih]

/-- An escape has no percent sign. -/
theorem not_mem_escapeTail (hb : b < 0x80) (h : ¬Safe b) : byte '%' ∉ escapeTail b :=
  forall_ascii (P := fun b => ¬Safe b → byte '%' ∉ escapeTail b) (by decide +kernel) hb h

/-- Only a percent sign in the string puts one into its text. -/
theorem not_mem_marshalText (hs : validUtf8 s = true) (h : byte '%' ∉ s) :
    byte '%' ∉ marshalText s := by
  refine rune_induction (P := fun s => byte '%' ∉ s → byte '%' ∉ marshalText s) ?_ ?_ ?_ hs h
  · intro _
    rw [marshalText_nil]
    simp
  · intro b u hb ih hm
    simp only [List.mem_cons, not_or] at hm
    by_cases hsafe : Safe b
    · rw [marshalText_safe hb hsafe, List.mem_cons, not_or]
      exact ⟨hm.1, ih hm.2⟩
    · rw [marshalText_escape hb hsafe, List.mem_cons, List.mem_append, not_or, not_or]
      exact ⟨by decide, not_mem_escapeTail hb hsafe, ih hm.2⟩
  · intro b u r v hb hd ih hm
    obtain ⟨he, -⟩ := decodeRune_spec hd
    rw [he, List.mem_append, not_or] at hm
    rw [marshalText_rune hb hd, List.mem_append, not_or]
    refine ⟨?_, ih hm.2⟩
    unfold runeText
    split_ifs
    · decide
    · decide
    · exact hm.1

/-- The text that json.Marshal writes for a map with these two entries. -/
def marshalMap (fileName host : Bytes) : Bytes :=
  ascii "\x7b\"fileName\":\"" ++ (marshalText fileName ++ (ascii "\",\"host\":\"" ++
    (marshalText host ++ ascii "\"\x7d")))

/-- The map of two well formed strings is read back. -/
theorem decodes_marshalMap {fileName host : Bytes} (hf : validUtf8 fileName = true)
    (hh : validUtf8 host = true) :
    Decodes (marshalMap fileName host)
      (.obj [(ascii "fileName", .str fileName), (ascii "host", .str host)]) := by
  have hutf8 : validUtf8 (marshalMap fileName host) = true :=
    validUtf8_append (by decide) (validUtf8_append (validUtf8_marshalText hf)
      (validUtf8_append (by decide) (validUtf8_append (validUtf8_marshalText hh) (by decide))))
  have hhost : readValue 1 (byte '"' :: (marshalText host ++ ascii "\"\x7d")) =
      some (.str host, ascii "\x7d") :=
    readValue_string (scanString_marshalText hh _)
  have hkey : scanString (ascii "host\":\"" ++ (marshalText host ++ ascii "\"\x7d")) =
      some (ascii "host", byte ':' :: byte '"' :: (marshalText host ++ ascii "\"\x7d")) :=
    scanString_cut (s := ascii "host") (by decide) _
  have hname : readValue 2 (byte '"' :: (marshalText fileName ++ (ascii "\",\"host\":\"" ++
      (marshalText host ++ ascii "\"\x7d")))) =
        some (.str fileName, ascii ",\"host\":\"" ++ (marshalText host ++ ascii "\"\x7d")) :=
    readValue_string (scanString_marshalText hf _)
  have hkey' : scanString (ascii "fileName\":\"" ++ (marshalText fileName ++
      (ascii "\",\"host\":\"" ++ (marshalText host ++ ascii "\"\x7d")))) =
        some (ascii "fileName", byte ':' :: byte '"' :: (marshalText fileName ++
          (ascii "\",\"host\":\"" ++ (marshalText host ++ ascii "\"\x7d")))) :=
    scanString_cut (s := ascii "fileName") (by decide) _
  exact ⟨hutf8, 4, [], readValue_object (readMembers_cons hkey' hname
    (readMembers_last hkey hhost)), rfl⟩

/-- The text of a map has a percent sign only if one of its strings has. -/
theorem not_mem_marshalMap {fileName host : Bytes} (hf : validUtf8 fileName = true)
    (hh : validUtf8 host = true) (hpf : byte '%' ∉ fileName) (hph : byte '%' ∉ host) :
    byte '%' ∉ marshalMap fileName host := by
  simp only [marshalMap, List.mem_append, not_or]
  exact ⟨by decide, not_mem_marshalText hf hpf, by decide, not_mem_marshalText hh hph, by decide⟩

end VideooServer.JsonMarshal
