import VideooServer.UrlParse

/-!
# Names of uploaded and of encoded files

The fs server stores an upload under the clock reading followed by the
extension of the original name. The encode server derives the name of the
encoded file from the URL of its source, and the player page derives it
once more from the stored name. The two derivations are compared on every
name that can be stored.
-/

namespace VideooServer.OutputName

open ByteText PercentCodec UrlParse

/-- The encode server's genOutFileName. -/
def genOutFileName (rawSrcURL : Bytes) : Except String Bytes :=
  match Parse rawSrcURL with
  | none => .error "url format err"
  | some srcURL =>
    let paths := srcURL.path.splitOn (byte '/')
    if paths.length < 1 then .error "url has no path"
    else
      let rname := (paths.getD (paths.length - 1) []).splitOn (byte '.')
      if rname.length < 1 then .error "file name format wrong in url"
      else .ok (rname.getD 0 [] ++ ascii ".mp4")

/-- The last path segment up to its first dot. -/
def stem (path : Bytes) : Bytes := upTo (byte '.') (pastLast (byte '/') path)

/-- The last segment is what is past the last separator. -/
theorem getD_last_splitOn (sep : UInt8) (s : Bytes) :
    (s.splitOn sep).getD ((s.splitOn sep).length - 1) [] = pastLast sep s := by
  have h := splitOn_getLast? sep s
  rw [List.getLast?_eq_getElem?] at h
  rw [List.getD_eq_getElem?_getD, h, Option.getD_some]

/-- The first segment is what precedes the first separator. -/
theorem getD_zero_splitOn (sep : UInt8) (s : Bytes) : (s.splitOn sep).getD 0 [] = upTo sep s := by
  have h := splitOn_head? sep s
  rw [List.head?_eq_getElem?] at h
  rw [List.getD_eq_getElem?_getD, h, Option.getD_some]

/-- The two length checks never fire, so only a parse error is reported. -/
theorem genOutFileName_eq (rawSrcURL : Bytes) :
    genOutFileName rawSrcURL =
      match Parse rawSrcURL with
      | none => .error "url format err"
      | some srcURL => .ok (stem srcURL.path ++ ascii ".mp4") := by
  unfold genOutFileName
  cases Parse rawSrcURL with
  | none => rfl
  | some srcURL =>
    have hpaths := splitOn_length_pos (byte '/') srcURL.path
    have hrname := splitOn_length_pos (byte '.') (pastLast (byte '/') srcURL.path)
    dsimp only
    rw [if_neg (by omega), getD_last_splitOn, if_neg (by omega), getD_zero_splitOn]
    rfl

/-- An accepted URL has been parsed, and its decoded path names the output. -/
theorem exists_of_genOutFileName {rawSrcURL output : Bytes}
    (h : genOutFileName rawSrcURL = .ok output) :
    ∃ srcURL, Parse rawSrcURL = some srcURL ∧ output = stem srcURL.path ++ ascii ".mp4" := by
  rw [genOutFileName_eq] at h
  cases hp : Parse rawSrcURL with
  | none =>
    rw [hp] at h
    cases h
  | some srcURL =>
    rw [hp] at h
    exact ⟨srcURL, rfl, (Except.ok.inj h).symm⟩

/-- The stem is the longest beginning without a dot of the text after the
last slash, and has none of both. -/
theorem stem_spec (path : Bytes) :
    LastPart (byte '/') path (pastLast (byte '/') path) ∧
      LongestPrefix (byte '.') (pastLast (byte '/') path) (stem path) ∧
        byte '/' ∉ stem path ∧ byte '.' ∉ stem path := by
  refine ⟨lastPart_iff.mpr rfl, longestPrefix_iff.mpr rfl, fun h => ?_, not_mem_upTo _ _⟩
  exact not_mem_pastLast _ _ ((upTo_sublist _ _).subset h)

/-- Scan a reversed path for its extension, with the bytes already passed. -/
def extFrom : Bytes → Bytes → Bytes
  | [], _ => []
  | c :: t, passed =>
    if c = byte '/' then []
    else if c = byte '.' then c :: passed
    else extFrom t (c :: passed)

/-- filepath.Ext: the suffix from the last dot of the last path element. -/
def ext (path : Bytes) : Bytes := extFrom path.reverse []

/-- The name upload stores a file under. -/
def storedName (now : Int) (filename : Bytes) : Bytes := decimal now ++ ext filename

/-- The name the player page asks for, given the stored name. -/
def pageName (name : Bytes) : Bytes := (name.splitOn (byte '.')).getD 0 [] ++ ascii ".mp4"

/-- The source URL that handler2 prints for a file name. -/
def sourceURL (fsHost : Host) (fileName : Bytes) : Bytes := httpURL fsHost (ascii "5000") fileName

/-- An extension is empty, or a dot and a text without dots and slashes. -/
theorem extFrom_cases {passed : Bytes} (hdot : byte '.' ∉ passed) (hslash : byte '/' ∉ passed)
    (s : Bytes) : extFrom s passed = [] ∨
      ∃ e, extFrom s passed = byte '.' :: e ∧ byte '.' ∉ e ∧ byte '/' ∉ e := by
  induction s generalizing passed with
  | nil => exact Or.inl rfl
  | cons c t ih =>
    rw [extFrom]
    split_ifs with h1 h2
    · exact Or.inl rfl
    · exact Or.inr ⟨passed, by rw [h2], hdot, hslash⟩
    · refine ih ?_ ?_
      · simpa [Ne.symm h2] using hdot
      · simpa [Ne.symm h1] using hslash

/-- An extension is empty or a dot followed by no further dot or slash. -/
theorem ext_cases (path : Bytes) :
    ext path = [] ∨ ∃ e, ext path = byte '.' :: e ∧ byte '.' ∉ e ∧ byte '/' ∉ e :=
  extFrom_cases (by simp) (by simp) _

/-- An extension has no slash. -/
theorem not_mem_ext_slash (path : Bytes) : byte '/' ∉ ext path := by
  rcases ext_cases path with h | ⟨e, h, -, hs⟩
  · simp [h]
  · rw [h, List.mem_cons, not_or]
    exact ⟨by decide, hs⟩

/-- The stored name up to its first dot is the clock reading. -/
theorem upTo_dot_storedName (now : Int) (filename : Bytes) :
    upTo (byte '.') (storedName now filename) = decimal now := by
  have hd : byte '.' ∉ decimal now := not_mem_decimal (by decide) (by decide) now
  rcases ext_cases filename with h | ⟨e, h, -, -⟩
  · rw [storedName, h, List.append_nil, upTo_of_not_mem hd]
  · rw [storedName, h, upTo_append_cons hd]

/-- The page asks for the encoding under the decimal of the clock. -/
theorem pageName_storedName (now : Int) (filename : Bytes) :
    pageName (storedName now filename) = decimal now ++ ascii ".mp4" := by
  rw [pageName, getD_zero_splitOn, upTo_dot_storedName]

/-- The part of an extension that reaches the URL path. -/
def pathPart (e : Bytes) : Bytes := upTo (byte '?') (upTo (byte '#') e)

/-- The part of an extension that becomes the URL fragment. -/
def fragmentPart (e : Bytes) : Bytes := pastFirst (byte '#') e

/-- Parsing the URL of a stored name decodes the two parts of its extension. -/
theorem Parse_sourceURL (fsHost : Host) (now : Int) (filename : Bytes) :
    Parse (sourceURL fsHost (storedName now filename)) =
      (unescape .encodePath (pathPart (ext filename))).bind fun d =>
        (unescape .encodeFragment (fragmentPart (ext filename))).map fun f =>
          ⟨ascii "http", [], authority fsHost (ascii "5000"), byte '/' :: (decimal now ++ d),
            pastFirst (byte '?') (upTo (byte '#') (ext filename)), f⟩ := by
  have hport : ∀ d ∈ ascii "5000", IsDigit d := by decide
  have hnum : byte '#' ∉ decimal now := not_mem_decimal (by decide) (by decide) now
  have hq : byte '?' ∉ decimal now := not_mem_decimal (by decide) (by decide) now
  have hplain : ∀ c ∈ byte '/' :: decimal now, Plain .encodePath c := by
    intro c hc
    refine ⟨?_, fun h => absurd h.2 (by decide)⟩
    rintro rfl
    rcases List.mem_cons.mp hc with h | h
    · exact absurd h (by decide)
    · exact not_mem_decimal (by decide) (by decide) now h
  rw [sourceURL, Parse_httpURL fsHost hport, storedName, upTo_append hnum, upTo_append hq,
    pastFirst_append hnum, pastFirst_append hq, ← List.cons_append, unescape_append hplain]
  rw [Option.bind_map]
  rfl

/-- The condition for both derivations to agree: the extension has no
malformed escape, and no escaped slash in the part that reaches the path
unless the text after the last one happens to be the clock reading again. -/
def NamesAgree (now : Int) (filename : Bytes) : Prop :=
  WellEscaped (pathPart (ext filename)) ∧ WellEscaped (fragmentPart (ext filename)) ∧
    (EscapedSlash (pathPart (ext filename)) →
      (unescape .encodePath (pathPart (ext filename))).map stem = some (decimal now))

/-- Decoding keeps the leading dot of an extension. -/
theorem unescape_pathPart_dot {filename d : Bytes}
    (h : unescape .encodePath (pathPart (ext filename)) = some d) :
    upTo (byte '.') d = [] := by
  have hdot : Plain .encodePath (byte '.') := ⟨by decide, by decide⟩
  rcases ext_cases filename with he | ⟨e, he, -, -⟩
  · obtain rfl : d = [] := by
      rw [he] at h
      simpa [pathPart, upTo, unescape, eq_comm] using h
    rfl
  · have hp : pathPart (ext filename) = byte '.' :: pathPart e := by
      rw [he]
      rfl
    rw [hp, unescape_cons hdot, Option.map_eq_some_iff] at h
    obtain ⟨v, -, rfl⟩ := h
    rfl

/-- What a URL keeps of an extension has no slash. -/
theorem not_mem_pathPart_slash (filename : Bytes) : byte '/' ∉ pathPart (ext filename) := by
  intro h
  have h1 := (upTo_sublist (byte '?') _).subset h
  exact not_mem_ext_slash filename ((upTo_sublist (byte '#') _).subset h1)

/-- The encode server's stem for a decoded extension. -/
theorem stem_source (now : Int) (d : Bytes) :
    stem (byte '/' :: (decimal now ++ d)) =
      if byte '/' ∈ d then stem d else decimal now ++ upTo (byte '.') d := by
  have hslash : byte '/' ∉ decimal now := not_mem_decimal (by decide) (by decide) now
  have hdot : byte '.' ∉ decimal now := not_mem_decimal (by decide) (by decide) now
  split_ifs with h
  · obtain ⟨a, b, rfl, hb⟩ := exists_last_cut h
    have he : byte '/' :: (decimal now ++ (a ++ byte '/' :: b)) =
        (byte '/' :: (decimal now ++ a)) ++ byte '/' :: b := by simp
    rw [stem, stem, he, pastLast_append_cons hb, pastLast_append_cons hb]
  · have he : byte '/' ∉ decimal now ++ d := by simp [hslash, h]
    have hl : pastLast (byte '/') (byte '/' :: (decimal now ++ d)) = decimal now ++ d :=
      pastLast_append_cons (a := []) he
    rw [stem, hl, upTo_append hdot]

/-- On a source URL whose two parts decode, the encode server answers with
the stem of the decoded path. -/
theorem genOutFileName_sourceURL {fsHost : Host} {now : Int} {filename d f : Bytes}
    (hd : unescape .encodePath (pathPart (ext filename)) = some d)
    (hf : unescape .encodeFragment (fragmentPart (ext filename)) = some f) :
    genOutFileName (sourceURL fsHost (storedName now filename)) =
      .ok ((if byte '/' ∈ d then stem d else decimal now) ++ ascii ".mp4") := by
  rw [genOutFileName_eq, Parse_sourceURL, hd, hf]
  simp only [Option.bind_some, Option.map_some]
  rw [stem_source, unescape_pathPart_dot hd, List.append_nil]

/-- A malformed escape in either part is reported as an error. -/
theorem genOutFileName_malformed {fsHost : Host} {now : Int} {filename : Bytes}
    (h : unescape .encodePath (pathPart (ext filename)) = none ∨
      unescape .encodeFragment (fragmentPart (ext filename)) = none) :
    genOutFileName (sourceURL fsHost (storedName now filename)) = .error "url format err" := by
  rw [genOutFileName_eq, Parse_sourceURL]
  rcases h with h | h
  · rw [h]
    rfl
  · rw [h]
    cases unescape .encodePath (pathPart (ext filename)) <;> rfl

/-- The player page and the encoder agree exactly on the names whose
extension meets the condition. -/
theorem genOutFileName_eq_pageName_iff (fsHost : Host) (now : Int) (filename : Bytes) :
    genOutFileName (sourceURL fsHost (storedName now filename)) =
        .ok (pageName (storedName now filename)) ↔ NamesAgree now filename := by
  rw [pageName_storedName, NamesAgree, ← unescape_eq_some_iff .encodePath,
    ← unescape_eq_some_iff .encodeFragment]
  cases hd : unescape .encodePath (pathPart (ext filename)) with
  | none =>
    rw [genOutFileName_malformed (Or.inl hd)]
    simp
  | some d =>
    cases hf : unescape .encodeFragment (fragmentPart (ext filename)) with
    | none =>
      rw [genOutFileName_malformed (Or.inr hf)]
      simp
    | some f =>
      have hs := slash_mem_unescape_iff (not_mem_pathPart_slash filename) hd
      rw [genOutFileName_sourceURL hd hf, ← hs]
      by_cases h : byte '/' ∈ d <;> simp [h]

/-- An escaped slash in the extension makes the encoder write a file that
the page does not ask for. -/
theorem genOutFileName_ne_pageName :
    genOutFileName (sourceURL ⟨ascii "10.0.0.2", by decide⟩ (storedName 7 (ascii "a.%2Fb"))) =
        .ok (ascii "b.mp4") ∧
      pageName (storedName 7 (ascii "a.%2Fb")) = ascii "7.mp4" ∧
      ¬∀ (fsHost : Host) (now : Int) (filename : Bytes),
        genOutFileName (sourceURL fsHost (storedName now filename)) =
          .ok (pageName (storedName now filename)) := by
  have henc : genOutFileName
      (sourceURL ⟨ascii "10.0.0.2", by decide⟩ (storedName 7 (ascii "a.%2Fb"))) =
        .ok (ascii "b.mp4") := by decide +kernel
  have hpage : pageName (storedName 7 (ascii "a.%2Fb")) = ascii "7.mp4" := by decide +kernel
  refine ⟨henc, hpage, fun h => ?_⟩
  have hall := h ⟨ascii "10.0.0.2", by decide⟩ 7 (ascii "a.%2Fb")
  rw [henc, hpage] at hall
  exact absurd hall (by decide)

end VideooServer.OutputName
