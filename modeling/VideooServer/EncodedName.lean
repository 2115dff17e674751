import VideooServer.FsServer

/-!
# What the encoder calls its output

Every URL that genOutFileName accepts gives a plain file name, whatever its
escapes, dots and slashes, so that the encode server and the fs server both
store it directly in their folder. The length checks are to reject URLs
that name no file, but a split has at least one piece: every URL that
parses is accepted, and all those that name no file get one common name.
-/

namespace VideooServer.EncodedName

open ByteText UrlParse OutputName FsServer

/-- Where ffmpeg writes its output and postFile reads it. -/
def dataPath (name : Bytes) : Path := [ascii "data", name]

/-- What is promised of the output for a decoded path: it is the last
segment up to its first dot with a suffix, and a direct child of both
folders. -/
structure PlainOutput (path output : Bytes) : Prop where
  /-- The last segment up to its first dot, and the suffix. -/
  named : ∃ segment s, LastPart (byte '/') path segment ∧ LongestPrefix (byte '.') segment s ∧
    byte '/' ∉ s ∧ byte '.' ∉ s ∧ output = s ++ ascii ".mp4"
  /-- The suffix has the only dot. -/
  one_dot : output.count (byte '.') = 1
  /-- It does not stand for a directory. -/
  ne_dot : output ≠ ascii "."
  /-- It does not stand for the directory above. -/
  ne_dots : output ≠ ascii ".."
  /-- The encode server's file is a direct child. -/
  data : resolve (ascii "data/" ++ output) = dataPath output
  /-- The fs server's file is a direct child. -/
  encoded : resolve (ascii "./content/encoded/" ++ output) = encodedPath output

/-- A plain name below data/ resolves to itself there. -/
theorem resolve_data {name : Bytes} (h : PlainName name) :
    resolve (ascii "data/" ++ name) = dataPath name := by
  have hslash : ascii "data/" = ascii "data" ++ [byte '/'] := by decide
  have hdir : resolve (ascii "data") = [ascii "data"] := by decide +kernel
  exact resolve_folder h hslash hdir

/-- Every accepted URL gives a plain output name. -/
theorem plainOutput_of_genOutFileName (rawSrcURL output : Bytes)
    (h : genOutFileName rawSrcURL = .ok output) :
    ∃ srcURL, Parse rawSrcURL = some srcURL ∧ PlainOutput srcURL.path output := by
  obtain ⟨srcURL, hp, houtput⟩ := exists_of_genOutFileName h
  obtain ⟨hlast, hlongest, hslash, hdot⟩ := stem_spec srcURL.path
  have hplain : PlainName output := plainName_of_genOutFileName h
  refine ⟨srcURL, hp, ⟨_, _, hlast, hlongest, hslash, hdot, houtput⟩, ?_, hplain.2.1,
    hplain.2.2.1, resolve_data hplain, resolve_encoded hplain⟩
  rw [houtput, List.count_append, List.count_eq_zero_of_not_mem hdot]
  decide

/-- An escaped slash ends the directory part like any other, an escaped dot
ends the stem. -/
theorem plainOutput_escaped :
    ∃ srcURL, Parse (ascii "http://h/a%2F%2E%2E%2Fb%2Ec?d") = some srcURL ∧
      PlainOutput srcURL.path (ascii "b.mp4") :=
  plainOutput_of_genOutFileName (ascii "http://h/a%2F%2E%2E%2Fb%2Ec?d") (ascii "b.mp4")
    (by decide +kernel)

/-- A URL that names no file: it does not parse, or its decoded path has an
empty last segment or one that begins with a dot. -/
def NamesNoFile (rawSrcURL : Bytes) : Prop :=
  Parse rawSrcURL = none ∨ ∃ srcURL segment, Parse rawSrcURL = some srcURL ∧
    LastPart (byte '/') srcURL.path segment ∧ (segment = [] ∨ segment.head? = some (byte '.'))

/-- A URL is rejected exactly when it names no file, and it shares the
output ".mp4" with no other URL when it names none. -/
def RejectsNameless (rawSrcURL : Bytes) : Prop :=
  ((∃ e, genOutFileName rawSrcURL = .error e) ↔ NamesNoFile rawSrcURL) ∧
    ∀ other, other ≠ rawSrcURL → NamesNoFile rawSrcURL → NamesNoFile other →
      ¬(genOutFileName rawSrcURL = .ok (ascii ".mp4") ∧
        genOutFileName other = .ok (ascii ".mp4"))

/-- When a URL parses, the last segment of its decoded path begins with
something other than a dot. -/
def NamedWhenParsed (rawSrcURL : Bytes) : Prop :=
  ∀ srcURL, Parse rawSrcURL = some srcURL →
    ∃ c t, pastLast (byte '/') srcURL.path = c :: t ∧ c ≠ byte '.'

/-- Only a URL that does not parse is rejected. -/
theorem genOutFileName_error_iff {rawSrcURL : Bytes} :
    (∃ e, genOutFileName rawSrcURL = .error e) ↔ Parse rawSrcURL = none := by
  rw [genOutFileName_eq]
  cases Parse rawSrcURL with
  | none => simp
  | some srcURL => simp

/-- The stem is empty when there is nothing in front of the first dot. -/
theorem stem_eq_nil_iff {path : Bytes} :
    stem path = [] ↔ pastLast (byte '/') path = [] ∨
      (pastLast (byte '/') path).head? = some (byte '.') := by
  rw [stem, upTo]
  cases pastLast (byte '/') path with
  | nil => simp
  | cons c t =>
    by_cases hc : c = byte '.'
    · simp [hc]
    · simp [hc]

/-- A URL names no file when it does not parse or when the stem of its
decoded path is empty. -/
theorem namesNoFile_iff {rawSrcURL : Bytes} :
    NamesNoFile rawSrcURL ↔
      Parse rawSrcURL = none ∨ ∃ srcURL, Parse rawSrcURL = some srcURL ∧ stem srcURL.path = [] := by
  simp [NamesNoFile, lastPart_iff, stem_eq_nil_iff]

/-- All accepted URLs that name no file get the bare suffix, and no other
URL does. -/
theorem genOutFileName_eq_suffix_iff {rawSrcURL : Bytes} :
    genOutFileName rawSrcURL = .ok (ascii ".mp4") ↔
      ∃ srcURL, Parse rawSrcURL = some srcURL ∧ stem srcURL.path = [] := by
  rw [genOutFileName_eq]
  cases Parse rawSrcURL with
  | none => simp
  | some srcURL => simp

/-- A URL is named when parsed unless it parses to an empty stem. -/
theorem namedWhenParsed_iff {rawSrcURL : Bytes} :
    NamedWhenParsed rawSrcURL ↔
      ¬∃ srcURL, Parse rawSrcURL = some srcURL ∧ stem srcURL.path = [] := by
  rw [NamedWhenParsed, not_exists]
  refine forall_congr' fun srcURL => ?_
  rw [not_and, stem_eq_nil_iff]
  refine imp_congr_right fun _ => ?_
  cases pastLast (byte '/') srcURL.path with
  | nil => simp
  | cons c t => simp

/-- A URL is treated as the length checks intend exactly when it does not
parse or when it names a file. -/
theorem rejectsNameless_iff (rawSrcURL : Bytes) :
    RejectsNameless rawSrcURL ↔ NamedWhenParsed rawSrcURL := by
  rw [RejectsNameless, genOutFileName_error_iff, namesNoFile_iff, namedWhenParsed_iff]
  constructor
  · rintro ⟨hrejects, -⟩ ⟨srcURL, hp, hstem⟩
    have hnone := hrejects.mpr (Or.inr ⟨srcURL, hp, hstem⟩)
    rw [hp] at hnone
    cases hnone
  · intro hnamed
    refine ⟨⟨Or.inl, fun h => h.resolve_right hnamed⟩, fun other _ _ _ hboth => ?_⟩
    exact hnamed (genOutFileName_eq_suffix_iff.mp hboth.1)

/-- A URL without a path and one whose segment begins with a dot are both
accepted, with one output name. -/
theorem nameless_accepted :
    genOutFileName (ascii "http://h") = .ok (ascii ".mp4") ∧
      genOutFileName (ascii "http://g/a/.b") = .ok (ascii ".mp4") ∧
      ¬∀ rawSrcURL, RejectsNameless rawSrcURL := by
  have hbare : genOutFileName (ascii "http://h") = .ok (ascii ".mp4") := by decide +kernel
  have hhidden : genOutFileName (ascii "http://g/a/.b") = .ok (ascii ".mp4") := by decide +kernel
  refine ⟨hbare, hhidden, fun h => ?_⟩
  have hnameless : ∀ raw, genOutFileName raw = .ok (ascii ".mp4") → NamesNoFile raw :=
    fun raw hraw => namesNoFile_iff.mpr (Or.inr (genOutFileName_eq_suffix_iff.mp hraw))
  exact (h (ascii "http://h")).2 (ascii "http://g/a/.b") (by decide) (hnameless _ hbare)
    (hnameless _ hhidden) ⟨hbare, hhidden⟩

end VideooServer.EncodedName
