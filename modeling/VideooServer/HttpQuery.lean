import VideooServer.UrlParse

/-!
# Request lines and form values

What a Go server reads with FormValue from a request line that a client
wrote: the line is cut at the first newline and split at its first two
spaces, the target is parsed, its query is split at ampersands and
semicolons, and keys and values are unescaped. A form value that is as
long as the query allows must have been sent without any escape.
-/

namespace VideooServer.HttpQuery

open ByteText PercentCodec UrlParse

/-- The separators of a query, as of the golang 1.4 images. -/
def isPairSep (c : UInt8) : Bool := c == byte '&' || c == byte ';'

/-- One key and its value. A piece that is empty or malformed is dropped. -/
def parsePair (piece : Bytes) : Option (Bytes × Bytes) :=
  if piece = [] then none
  else
    (unescape .encodeQueryComponent (upTo (byte '=') piece)).bind fun key =>
      (unescape .encodeQueryComponent (pastFirst (byte '=') piece)).map fun value => (key, value)

/-- url.ParseQuery, with the pairs in the order of the query. -/
def parseQuery (query : Bytes) : List (Bytes × Bytes) :=
  (query.splitOnP isPairSep).filterMap parsePair

/-- r.FormValue of a request without a body: the first value of a key,
empty when there is none. -/
def formValue (key query : Bytes) : Bytes :=
  (((parseQuery query).find? fun p => p.1 == key).map Prod.snd).getD []

/-- Unreserved and path bytes stay, every other byte is escaped. -/
def shouldEscape (c : UInt8) : Bool :=
  !(isLetter c || isSchemeRest c ||
    c ∈ ascii "_~$&,/:;=@")

/-- Upper-case hexadecimal digit of a value below sixteen. -/
def upperHex (c : UInt8) : UInt8 := if c < 10 then byte '0' + c else byte 'A' + (c - 10)

/-- The escape of a byte. -/
def escapeByte (c : UInt8) : Bytes := [byte '%', upperHex (c >>> 4), upperHex (c &&& 15)]

/-- url.escape of a path. -/
def escapePath (path : Bytes) : Bytes :=
  path.flatMap fun c => if shouldEscape c then escapeByte c else [c]

/-- URL.RequestURI: the target a client sends, its query as it stands. -/
def requestURI (url : URL) : Bytes :=
  (if url.opaquePart ≠ [] then url.opaquePart
    else if url.path = [] then ascii "/" else escapePath url.path) ++
    if url.rawQuery = [] then [] else byte '?' :: url.rawQuery

/-- The target of http.Get, none when the URL does not parse. -/
def getTarget (rawurl : Bytes) : Option Bytes := (Parse rawurl).map requestURI

/-- The first line of a request, with its line ending. -/
def requestLine (target : Bytes) : Bytes := ascii "GET " ++ target ++ ascii " HTTP/1.1\r\n"

/-- Remove one carriage return at the end of a line. -/
def trimCR (line : Bytes) : Bytes :=
  if line.getLast? = some (byte '\r') then line.dropLast else line

/-- The target of a received request, none when its first line is malformed. -/
def readTarget (wire : Bytes) : Option Bytes :=
  let line := trimCR (upTo (byte '\n') wire)
  let rest := pastFirst (byte ' ') line
  let proto := pastFirst (byte ' ') rest
  if proto = ascii "HTTP/1.1" ∨ proto = ascii "HTTP/1.0" then some (upTo (byte ' ') rest) else none

/-- What the handler behind a target reads as the form value of a key,
none when the server answers the request itself. -/
def serveFormValue (key target : Bytes) : Option Bytes :=
  (readTarget (requestLine target)).bind fun t =>
    (ParseRequestURI t).map fun url => formValue key url.rawQuery

variable {key v q s t : Bytes}

/-- A byte that a query carries as it stands. -/
def QueryByte (c : UInt8) : Prop := Plain .encodeQueryComponent c ∧ isPairSep c = false

instance (c : UInt8) : Decidable (QueryByte c) := inferInstanceAs (Decidable (_ ∧ _))

/-- A pair is no longer than its piece. -/
theorem parsePair_length {piece key v : Bytes} (h : parsePair piece = some (key, v)) (hv : v ≠ []) :
    key.length + 1 + v.length ≤ piece.length := by
  rw [parsePair] at h
  split_ifs at h
  obtain ⟨k, hk, h⟩ := Option.bind_eq_some_iff.mp h
  obtain ⟨w, hw, he⟩ := Option.map_eq_some_iff.mp h
  obtain ⟨rfl, rfl⟩ := Prod.mk.inj he
  have hkl := unescape_length_le hk
  have hwl := unescape_length_le hw
  have heq : byte '=' ∈ piece := by
    by_contra hn
    rw [pastFirst_of_not_mem hn] at hwl
    exact hv (List.length_eq_zero_iff.mp (by simpa using hwl))
  have hcut := length_cut heq
  omega

/-- A nonempty form value comes from one piece of the query. -/
theorem exists_piece (h : formValue key q ≠ []) :
    ∃ piece ∈ q.splitOnP isPairSep, parsePair piece = some (key, formValue key q) := by
  unfold formValue at h ⊢
  cases hf : (parseQuery q).find? fun p => p.1 == key with
  | none => simp [hf] at h
  | some p =>
    obtain ⟨piece, hpiece, hp⟩ := List.mem_filterMap.mp (List.mem_of_find?_eq_some hf)
    have hkey : p.1 = key := by simpa using List.find?_some hf
    refine ⟨piece, hpiece, ?_⟩
    rw [hp, ← hkey]
    rfl

/-- A nonempty form value and its key fit into the query. -/
theorem formValue_length (h : formValue key q ≠ []) :
    key.length + 1 + (formValue key q).length ≤ q.length := by
  obtain ⟨piece, hm, hp⟩ := exists_piece h
  exact (parsePair_length hp h).trans (length_of_mem_splitOnP hm).1

/-- A pair without an escape is read back. -/
theorem parsePair_of_plain (hk : ∀ c ∈ key, QueryByte c ∧ c ≠ byte '=')
    (hv : ∀ c ∈ v, QueryByte c) : parsePair (key ++ byte '=' :: v) = some (key, v) := by
  have hne : byte '=' ∉ key := fun h => (hk _ h).2 rfl
  rw [parsePair, if_neg (by simp), upTo_append_cons hne, pastFirst_append_cons hne,
    unescape_of_plain fun c hc => (hk c hc).1.1, unescape_of_plain fun c hc => (hv c hc).1]
  rfl

/-- A value is read back from its own pair exactly when the query carries
each of its bytes as it stands. -/
theorem formValue_self_iff (hk : ∀ c ∈ key, QueryByte c ∧ c ≠ byte '=') (hv : v ≠ []) :
    formValue key (key ++ byte '=' :: v) = v ↔ ∀ c ∈ v, QueryByte c := by
  have hne : byte '=' ∉ key := fun h => (hk _ h).2 rfl
  constructor
  · intro h
    have hform : formValue key (key ++ byte '=' :: v) ≠ [] := by rwa [h]
    obtain ⟨piece, hm, hp⟩ := exists_piece hform
    have hlen := parsePair_length hp hform
    rw [h] at hp hlen
    have hsep : ¬∃ c ∈ key ++ byte '=' :: v, isPairSep c = true := by
      intro hs
      have hlt := (length_of_mem_splitOnP hm).2 hs
      simp only [List.length_append, List.length_cons] at hlt
      omega
    have hall : ∀ c ∈ key ++ byte '=' :: v, isPairSep c = false := fun c hc =>
      Bool.eq_false_iff.mpr fun ht => hsep ⟨c, hc, ht⟩
    rw [List.splitOnP_eq_singleton hall, List.mem_singleton] at hm
    rw [hm, parsePair, if_neg (by simp), upTo_append_cons hne, pastFirst_append_cons hne] at hp
    obtain ⟨k, -, hp⟩ := Option.bind_eq_some_iff.mp hp
    obtain ⟨w, hw, he⟩ := Option.map_eq_some_iff.mp hp
    obtain ⟨rfl, rfl⟩ := Prod.mk.inj he
    intro c hc
    exact ⟨unescape_eq_self_iff.mp hw c hc, hall c (by simp [hc])⟩
  · intro h
    have hall : ∀ c ∈ key ++ byte '=' :: v, isPairSep c = false := by
      intro c hc
      rcases List.mem_append.mp hc with hc | hc
      · exact (hk c hc).1.2
      · rcases List.mem_cons.mp hc with rfl | hc
        · rfl
        · exact (h c hc).2
    rw [formValue, parseQuery, List.splitOnP_eq_singleton hall]
    simp [parsePair_of_plain hk h]

/-- A front without carriage returns is kept. -/
theorem trimCR_append (h : byte '\r' ∉ s) (t : Bytes) : trimCR (s ++ t) = s ++ trimCR t := by
  by_cases ht : t = []
  · have hs : s.getLast? ≠ some (byte '\r') := fun he => h (List.mem_of_getLast? he)
    simp [ht, trimCR, hs]
  · have hl : (s ++ t).getLast? = t.getLast? := by
      rw [List.getLast?_append, List.getLast?_eq_some_getLast ht, Option.some_or]
    rw [trimCR, trimCR, hl]
    split_ifs
    · exact List.dropLast_append_of_ne_nil ht
    · rfl

/-- Trimming makes no line longer. -/
theorem length_trimCR_le (s : Bytes) : (trimCR s).length ≤ s.length := by
  rw [trimCR]
  split_ifs <;> simp

/-- The line a server reads from a request, without its ending. -/
theorem trimCR_requestLine (t : Bytes) :
    trimCR (upTo (byte '\n') (requestLine t)) =
      ascii "GET " ++ if byte '\n' ∈ t then trimCR (upTo (byte '\n') t) else t ++ ascii " HTTP/1.1" := by
  have hget : byte '\n' ∉ ascii "GET " := by decide
  have hcr : byte '\r' ∉ ascii "GET " := by decide
  rw [requestLine, List.append_assoc, upTo_append hget, trimCR_append hcr]
  congr 1
  split_ifs with h
  · obtain ⟨a, b, rfl, ha⟩ := List.eq_append_cons_of_mem h
    rw [List.append_assoc, List.cons_append, upTo_append_cons ha, upTo_append_cons ha]
  · rw [upTo_append h]
    have hline : upTo (byte '\n') (ascii " HTTP/1.1\r\n") = ascii " HTTP/1.1" ++ [byte '\r'] := by
      decide
    rw [hline, ← List.append_assoc, trimCR, List.getLast?_concat, if_pos rfl, List.dropLast_concat]

/-- A target without spaces and newlines arrives as it was sent. -/
theorem readTarget_requestLine (hs : byte ' ' ∉ t) (hn : byte '\n' ∉ t) :
    readTarget (requestLine t) = some t := by
  have hrest : pastFirst (byte ' ') (ascii "GET " ++ (t ++ ascii " HTTP/1.1")) =
      t ++ byte ' ' :: ascii "HTTP/1.1" := rfl
  rw [readTarget, trimCR_requestLine, if_neg hn, hrest]
  rw [pastFirst_append_cons hs, upTo_append_cons hs, if_pos (Or.inl rfl)]

/-- Of a target with a space or a newline at most a proper part arrives. -/
theorem readTarget_length {p u : Bytes} (hp : byte ' ' ∉ p) (hpn : byte '\n' ∉ p)
    (hpr : byte '\r' ∉ p) (h : readTarget (requestLine (p ++ t)) = some u) :
    ∃ r, u = p ++ r ∧ (byte ' ' ∈ t ∨ byte '\n' ∈ t → r.length < t.length) := by
  have hget : ∀ z, pastFirst (byte ' ') (ascii "GET " ++ z) = z := fun z => rfl
  rw [readTarget, trimCR_requestLine, hget] at h
  split_ifs at h with hn _ _
  · obtain rfl := Option.some.inj h
    have hnt : byte '\n' ∈ t := (List.mem_append.mp hn).resolve_left hpn
    rw [upTo_append hpn, trimCR_append hpr, upTo_append hp]
    refine ⟨_, rfl, fun _ => ?_⟩
    have h1 := (upTo_sublist (byte ' ') (trimCR (upTo (byte '\n') t))).length_le
    have h2 := length_trimCR_le (upTo (byte '\n') t)
    have h3 := length_upTo_lt hnt
    omega
  · obtain rfl := Option.some.inj h
    have hnt : byte '\n' ∉ t := fun hm => hn (List.mem_append.mpr (Or.inr hm))
    rw [List.append_assoc, upTo_append hp]
    refine ⟨_, rfl, fun hm => ?_⟩
    obtain ⟨a, b, rfl, ha⟩ := List.eq_append_cons_of_mem (hm.resolve_right hnt)
    rw [List.append_assoc, List.cons_append, upTo_append_cons ha]
    simp

/-- A request target with a path of its own keeps its query undecoded. -/
theorem ParseRequestURI_path {p : Bytes} (hq : byte '?' ∉ p) (hp : ∀ c ∈ p, Plain .encodePath c)
    (q : Bytes) :
    ParseRequestURI (byte '/' :: (p ++ byte '?' :: q)) =
      some { emptyURL with path := byte '/' :: p, rawQuery := q } := by
  have hslash : byte '?' ∉ byte '/' :: p := by
    rw [List.mem_cons, not_or]
    exact ⟨by decide, hq⟩
  have hplain : ∀ c ∈ byte '/' :: p, Plain .encodePath c := by
    intro c hc
    rcases List.mem_cons.mp hc with rfl | hc
    · exact ⟨by decide, by decide⟩
    · exact hp c hc
  have hstar : byte '/' :: (p ++ byte '?' :: q) ≠ ascii "*" := by
    intro h
    exact absurd (List.cons.inj h).1 (by decide)
  have hscheme : getscheme (byte '/' :: (p ++ byte '?' :: q)) =
      some ([], byte '/' :: (p ++ byte '?' :: q)) := rfl
  rw [ParseRequestURI, parse, if_neg (by simp), if_neg hstar, hscheme]
  simp only [Option.bind_some]
  rw [← List.cons_append, upTo_append_cons hslash, pastFirst_append_cons hslash]
  have hauth : hasAuthority (toLower []) (byte '/' :: p) true = false := rfl
  have hfirst : (ascii "/").isPrefixOf (byte '/' :: p) = true := rfl
  rw [if_pos hfirst, parseHierarchy, hauth, if_neg (by simp), unescape_of_plain hplain]
  rfl

/-- A byte that a request line and its query carry as it stands. -/
def CarriedByte (c : UInt8) : Prop := QueryByte c ∧ c ≠ byte ' ' ∧ c ≠ byte '\n'

instance (c : UInt8) : Decidable (CarriedByte c) := inferInstanceAs (Decidable (_ ∧ _))

/-- A path, a key and the start of a query, none of them with a byte that
a request line or a query would read differently. -/
structure Endpoint where
  /-- Path after the leading slash. -/
  path : Bytes
  /-- Key of the form value. -/
  key : Bytes
  /-- The path is carried and decoded as it stands. -/
  path_plain : ∀ c ∈ path, Plain .encodePath c ∧ c ∉ ascii "? \r\n"
  /-- So is the key. -/
  key_plain : ∀ c ∈ key, CarriedByte c ∧ c ∉ ascii "=\r"

/-- The target /path?key= in front of a value. -/
def Endpoint.target (e : Endpoint) (value : Bytes) : Bytes :=
  byte '/' :: (e.path ++ byte '?' :: (e.key ++ byte '=' :: value))

/-- The form value that the handler of an endpoint reads. -/
def Endpoint.serve (e : Endpoint) (value : Bytes) : Option Bytes :=
  serveFormValue e.key (e.target value)

/-- The value stands at the end of the target. -/
theorem Endpoint.target_eq (e : Endpoint) (value : Bytes) :
    e.target value = e.target [] ++ value := by
  simp [Endpoint.target]

/-- The target in front of the value has no space and no line break. -/
theorem Endpoint.not_mem_target (e : Endpoint) {c : UInt8} (h : c ∈ ascii " \r\n") :
    c ∉ e.target [] := by
  have h3 : c = byte ' ' ∨ c = byte '\r' ∨ c = byte '\n' := by simpa [ascii] using h
  have hpath : c ∉ e.path := by
    intro hm
    refine (e.path_plain c hm).2 ?_
    rcases h3 with rfl | rfl | rfl <;> decide
  have hkey : c ∉ e.key := by
    intro hm
    obtain ⟨⟨-, hs, hn⟩, hr⟩ := e.key_plain c hm
    rcases h3 with rfl | rfl | rfl
    · exact hs rfl
    · exact hr (by decide)
    · exact hn rfl
  have hfix : c ≠ byte '/' ∧ c ≠ byte '?' ∧ c ≠ byte '=' := by
    rcases h3 with rfl | rfl | rfl <;> decide
  simp [Endpoint.target, hpath, hkey, hfix]

/-- What arrives at the handler is the form value of the query. -/
theorem Endpoint.parse_target (e : Endpoint) (value : Bytes) :
    ParseRequestURI (e.target value) =
      some { emptyURL with path := byte '/' :: e.path, rawQuery := e.key ++ byte '=' :: value } := by
  refine ParseRequestURI_path ?_ (fun c hc => (e.path_plain c hc).1) _
  exact fun h => (e.path_plain _ h).2 (by decide)

/-- A value without spaces and newlines reaches the query as it is. -/
theorem Endpoint.serve_eq (e : Endpoint) {value : Bytes} (hs : byte ' ' ∉ value)
    (hn : byte '\n' ∉ value) :
    e.serve value = some (formValue e.key (e.key ++ byte '=' :: value)) := by
  have hs' : byte ' ' ∉ e.target value := by
    rw [e.target_eq, List.mem_append, not_or]
    exact ⟨e.not_mem_target (by decide), hs⟩
  have hn' : byte '\n' ∉ e.target value := by
    rw [e.target_eq, List.mem_append, not_or]
    exact ⟨e.not_mem_target (by decide), hn⟩
  rw [Endpoint.serve, serveFormValue, readTarget_requestLine hs' hn', Option.bind_some,
    e.parse_target]
  rfl

/-- A nonempty form value is no longer than what was sent, and shorter when
that has a space or a newline. -/
theorem Endpoint.serve_length (e : Endpoint) {value w : Bytes} (h : e.serve value = some w)
    (hw : w ≠ []) : w.length ≤ value.length ∧
      (byte ' ' ∈ value ∨ byte '\n' ∈ value → w.length < value.length) := by
  by_cases hm : byte ' ' ∈ value ∨ byte '\n' ∈ value
  · rw [Endpoint.serve, serveFormValue, e.target_eq] at h
    obtain ⟨u, hu, h⟩ := Option.bind_eq_some_iff.mp h
    obtain ⟨r, rfl, hr⟩ := readTarget_length (e.not_mem_target (by decide))
      (e.not_mem_target (by decide)) (e.not_mem_target (by decide)) hu
    rw [← e.target_eq, e.parse_target, Option.map_some] at h
    obtain rfl : formValue e.key (e.key ++ byte '=' :: r) = w := Option.some.inj h
    have hl := formValue_length hw
    have hlt := hr hm
    simp only [List.length_append, List.length_cons] at hl
    exact ⟨by omega, fun _ => by omega⟩
  · obtain ⟨hs, hn⟩ := not_or.mp hm
    rw [e.serve_eq hs hn] at h
    obtain rfl := Option.some.inj h
    have hl := formValue_length hw
    simp only [List.length_append, List.length_cons] at hl
    exact ⟨by omega, fun hc => absurd hc hm⟩

/-- A handler reads the value that was sent exactly when every byte of it
is carried as it stands. -/
theorem Endpoint.serve_self_iff (e : Endpoint) {value : Bytes} (hv : value ≠ []) :
    e.serve value = some value ↔ ∀ c ∈ value, CarriedByte c := by
  have hk : ∀ c ∈ e.key, QueryByte c ∧ c ≠ byte '=' := by
    intro c hc
    obtain ⟨hcarried, hne⟩ := e.key_plain c hc
    refine ⟨hcarried.1, ?_⟩
    rintro rfl
    exact hne (by decide)
  constructor
  · intro h
    have hm : ¬(byte ' ' ∈ value ∨ byte '\n' ∈ value) := by
      intro hm
      exact absurd ((e.serve_length h hv).2 hm) (lt_irrefl _)
    obtain ⟨hs, hn⟩ := not_or.mp hm
    rw [e.serve_eq hs hn] at h
    have hq := (formValue_self_iff hk hv).mp (Option.some.inj h)
    intro c hc
    refine ⟨hq c hc, ?_, ?_⟩
    · rintro rfl
      exact hs hc
    · rintro rfl
      exact hn hc
  · intro h
    rw [e.serve_eq (fun hm => (h _ hm).2.1 rfl) (fun hm => (h _ hm).2.2 rfl)]
    rw [(formValue_self_iff hk hv).mpr fun c hc => (h c hc).1]

/-- A request target is parsed to its decoded path and its query as it
stands. -/
theorem ParseRequestURI_slash (s : Bytes) :
    ParseRequestURI (byte '/' :: s) =
      (unescape .encodePath (byte '/' :: upTo (byte '?') s)).map fun path =>
        { emptyURL with path := path, rawQuery := pastFirst (byte '?') s } := by
  have hstar : byte '/' :: s ≠ ascii "*" := by
    intro h
    exact absurd (List.cons.inj h).1 (by decide)
  have hscheme : getscheme (byte '/' :: s) = some ([], byte '/' :: s) := rfl
  have hq : byte '?' ∉ [byte '/'] := by decide
  have hup : upTo (byte '?') (byte '/' :: s) = byte '/' :: upTo (byte '?') s := upTo_append hq s
  have hpast : pastFirst (byte '?') (byte '/' :: s) = pastFirst (byte '?') s :=
    pastFirst_append hq s
  have hauth : hasAuthority (toLower []) (byte '/' :: upTo (byte '?') s) true = false := rfl
  have hfirst : (ascii "/").isPrefixOf (byte '/' :: upTo (byte '?') s) = true := rfl
  rw [ParseRequestURI, parse, if_neg (by simp), if_neg hstar, hscheme]
  simp only [Option.bind_some]
  rw [hup, hpast, if_pos hfirst, parseHierarchy, hauth, if_neg (by simp)]
  rfl

/-- The escape of a byte is decoded to it. -/
theorem unescape_escapeByte (c : UInt8) (t : Bytes) :
    unescape .encodePath (escapeByte c ++ t) = (unescape .encodePath t).map (c :: ·) := by
  have hall : ∀ n : ℕ, n < 256 →
      (ishex (upperHex (UInt8.ofNat n >>> 4)) && ishex (upperHex (UInt8.ofNat n &&& 15))) = true ∧
        unhex (upperHex (UInt8.ofNat n >>> 4)) <<< 4 ||| unhex (upperHex (UInt8.ofNat n &&& 15)) =
          UInt8.ofNat n := by
    decide +kernel
  have hc := hall c.toNat c.toNat_lt
  rw [UInt8.ofNat_toNat] at hc
  rw [escapeByte, List.cons_append, List.cons_append, List.singleton_append,
    unescape_escape hc.1, hc.2]

/-- Escaping every byte is undone by decoding. -/
theorem unescape_flatMap_escapeByte (s : Bytes) :
    unescape .encodePath (s.flatMap escapeByte) = some s := by
  induction s with
  | nil => rfl
  | cons c s ih => rw [List.flatMap_cons, unescape_escapeByte, ih, Option.map_some]

/-- An escape has no byte other than a percent sign and digits. -/
theorem not_mem_flatMap_escapeByte {c : UInt8} (hc : c ≠ byte '%') (hhex : ishex c = false)
    (s : Bytes) : c ∉ s.flatMap escapeByte := by
  have hall : ∀ n : ℕ, n < 256 → ∀ d ∈ escapeByte (UInt8.ofNat n),
      d = byte '%' ∨ ishex d = true := by
    decide +kernel
  intro hm
  obtain ⟨d, -, hd⟩ := List.mem_flatMap.mp hm
  have hn := hall d.toNat d.toNat_lt
  rw [UInt8.ofNat_toNat] at hn
  rcases hn c hd with h | h
  · exact hc h
  · rw [hhex] at h
    cases h

end VideooServer.HttpQuery
