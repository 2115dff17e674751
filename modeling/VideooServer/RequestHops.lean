import VideooServer.OutputName
import VideooServer.HttpQuery

/-!
# A file name on its way to the encoder

The player page sends the stored name to the app server, which sends the
source URL on to the encode server. Both concatenate the text into a query
without escaping it, and both receivers unescape what arrives. The name
survives exactly when its extension has no byte with a meaning of its own
on the way.
-/

namespace VideooServer.RequestHops

open ByteText PercentCodec UrlParse HttpQuery OutputName

/-- The app server's /handle with its file name. -/
def handleEndpoint : Endpoint := ⟨ascii "handle", ascii "filename", by decide, by decide⟩

/-- The encode server's /encode with its source URL. -/
def encodeEndpoint : Endpoint := ⟨ascii "encode", ascii "src_url", by decide, by decide⟩

/-- The request target of the page's /handle URL. The page concatenates the
name without escaping it, and a fragment is not sent. -/
def handleTarget (name : Bytes) : Bytes := ascii "/handle?filename=" ++ upTo (byte '#') name

/-- What handler2 reads as the form value filename. -/
def handleFileName (name : Bytes) : Option Bytes :=
  serveFormValue (ascii "filename") (handleTarget name)

/-- The URL that handler2 requests from the encode server. -/
def encodeRequestURL (encodeHost fsHost : Host) (fileName : Bytes) : Bytes :=
  httpURL encodeHost (ascii "6000") (ascii "encode?src_url=" ++ sourceURL fsHost fileName)

/-- What the encode server's handler reads as the form value src_url, none
when handler2's request does not reach it. -/
def encodeSrcURL (encodeHost fsHost : Host) (fileName : Bytes) : Option Bytes :=
  (getTarget (encodeRequestURL encodeHost fsHost fileName)).bind
    (serveFormValue (ascii "src_url"))

/-- The bytes that do not survive in a query that is concatenated unescaped. -/
def Reserved (c : UInt8) : Prop := c ∈ ascii "&;+%# \n"

instance (c : UInt8) : Decidable (Reserved c) := inferInstanceAs (Decidable (_ ∈ _))

/-- The bytes that survive all hops are carried and no hash signs. -/
theorem not_reserved_iff {c : UInt8} : ¬Reserved c ↔ CarriedByte c ∧ c ≠ byte '#' := by
  have hall : ∀ n : ℕ, n < 256 → (¬Reserved (UInt8.ofNat n) ↔
      CarriedByte (UInt8.ofNat n) ∧ UInt8.ofNat n ≠ byte '#') := by
    decide +kernel
  have hc := hall c.toNat c.toNat_lt
  rwa [UInt8.ofNat_toNat] at hc

/-- The bytes of host names are not reserved. -/
theorem hostByte_not_reserved {c : UInt8} (h : HostByte c) : ¬Reserved c := by
  have hall : ∀ n : ℕ, n < 256 → HostByte (UInt8.ofNat n) → ¬Reserved (UInt8.ofNat n) := by
    decide +kernel
  have hc := hall c.toNat c.toNat_lt
  rw [UInt8.ofNat_toNat] at hc
  exact hc h

/-- Nor are those of numerals. -/
theorem decimal_not_reserved {t : Int} {c : UInt8} (h : c ∈ decimal t) : ¬Reserved c := by
  apply hostByte_not_reserved
  rcases mem_decimal h with hd | rfl
  · exact Or.inr (Or.inl hd)
  · decide

/-- The first hop is faithful exactly on names without a reserved byte. -/
theorem handleFileName_eq_iff {name : Bytes} (hn : name ≠ []) :
    handleFileName name = some name ↔ ∀ c ∈ name, ¬Reserved c := by
  have he : handleFileName name = handleEndpoint.serve (upTo (byte '#') name) := rfl
  rw [he]
  by_cases hm : byte '#' ∈ name
  · constructor
    · intro h
      have hl := (handleEndpoint.serve_length h hn).1
      have hlt := length_upTo_lt hm
      omega
    · intro h
      exact absurd (by decide) (h _ hm)
  · rw [upTo_of_not_mem hm, handleEndpoint.serve_self_iff hn]
    refine forall₂_congr fun c hc => ?_
    rw [not_reserved_iff, and_iff_left]
    rintro rfl
    exact hm hc

/-- The second request carries the source URL up to a number sign. -/
theorem getTarget_encodeRequestURL (encodeHost fsHost : Host) (fileName : Bytes) :
    getTarget (encodeRequestURL encodeHost fsHost fileName) =
      (unescape .encodeFragment (pastFirst (byte '#') fileName)).map fun _ =>
        encodeEndpoint.target (sourceURL fsHost (upTo (byte '#') fileName)) := by
  have hsrc : byte '#' ∉ sourceURL fsHost [] := by
    have hh : byte '#' ∉ fsHost.name := fsHost.not_mem (by decide)
    simp only [sourceURL, httpURL, List.mem_append, not_or]
    exact ⟨⟨⟨⟨⟨by decide, hh⟩, by decide⟩, by decide⟩, by decide⟩, by decide⟩
  have happ : ∀ t, sourceURL fsHost t = sourceURL fsHost [] ++ t := by
    intro t
    simp [sourceURL, httpURL]
  have hnum : byte '#' ∉ ascii "encode?src_url=" ++ sourceURL fsHost [] := by
    rw [List.mem_append, not_or]
    exact ⟨by decide, hsrc⟩
  have htail : ascii "encode?src_url=" ++ sourceURL fsHost fileName =
      (ascii "encode?src_url=" ++ sourceURL fsHost []) ++ fileName := by
    rw [happ fileName, List.append_assoc]
  have hcut : upTo (byte '#') (ascii "encode?src_url=" ++ sourceURL fsHost fileName) =
      ascii "encode" ++ byte '?' ::
        (ascii "src_url=" ++ sourceURL fsHost (upTo (byte '#') fileName)) := by
    rw [htail, upTo_append hnum, List.append_assoc, ← happ]
    rfl
  have hfrag : pastFirst (byte '#') (ascii "encode?src_url=" ++ sourceURL fsHost fileName) =
      pastFirst (byte '#') fileName := by
    rw [htail, pastFirst_append hnum]
  have hpath : unescape .encodePath (byte '/' :: ascii "encode") = some (ascii "/encode") :=
    unescape_of_plain (by decide)
  rw [getTarget, encodeRequestURL, Parse_httpURL encodeHost (by decide), hcut, hfrag,
    upTo_append_cons (by decide), pastFirst_append_cons (by decide), hpath, Option.bind_some,
    Option.map_map]
  rfl

/-- A source URL has a reserved byte exactly when its file name has one. -/
theorem mem_sourceURL_not_reserved {fsHost : Host} {fileName : Bytes} :
    (∀ c ∈ sourceURL fsHost fileName, ¬Reserved c) ↔ ∀ c ∈ fileName, ¬Reserved c := by
  have hfix : ∀ c ∈ ascii "http://" ++ ascii ":" ++ ascii "5000" ++ ascii "/", ¬Reserved c := by
    decide
  constructor
  · intro h c hc
    exact h c (by simp [sourceURL, httpURL, hc])
  · intro h c hc
    simp only [sourceURL, httpURL, List.mem_append] at hc hfix
    rcases hc with ((((hc | hc) | hc) | hc) | hc) | hc
    · exact hfix c (by simp [hc])
    · exact hostByte_not_reserved (fsHost.plain c hc)
    · exact hfix c (by simp [hc])
    · exact hfix c (by simp [hc])
    · exact hfix c (by simp [hc])
    · exact h c hc

/-- The second hop is faithful exactly on names without a reserved byte. -/
theorem encodeSrcURL_eq_iff (encodeHost fsHost : Host) (fileName : Bytes) :
    encodeSrcURL encodeHost fsHost fileName = some (sourceURL fsHost fileName) ↔
      ∀ c ∈ fileName, ¬Reserved c := by
  have hlen : ∀ t, (sourceURL fsHost t).length = (sourceURL fsHost []).length + t.length := by
    intro t
    simp only [sourceURL, httpURL, List.length_append, List.length_nil]
    omega
  have hne : sourceURL fsHost fileName ≠ [] := by simp [sourceURL, httpURL, ascii]
  rw [encodeSrcURL, getTarget_encodeRequestURL]
  by_cases hm : byte '#' ∈ fileName
  · constructor
    · intro h
      obtain ⟨target, ht, h⟩ := Option.bind_eq_some_iff.mp h
      obtain ⟨f, -, rfl⟩ := Option.map_eq_some_iff.mp ht
      have hl := (encodeEndpoint.serve_length h hne).1
      rw [hlen, hlen (upTo _ _)] at hl
      have hlt := length_upTo_lt hm
      omega
    · intro h
      exact absurd (by decide) (h _ hm)
  · rw [upTo_of_not_mem hm, pastFirst_of_not_mem hm, unescape, Option.map_some, Option.bind_some]
    have hserve := encodeEndpoint.serve_self_iff hne
    rw [Endpoint.serve] at hserve
    refine hserve.trans ⟨fun h => ?_, fun h c hc => ?_⟩
    · intro c hc
      refine not_reserved_iff.mpr ⟨h c (by simp [sourceURL, httpURL, hc]), ?_⟩
      rintro rfl
      exact hm hc
    · exact (not_reserved_iff.mp (mem_sourceURL_not_reserved.mpr h c hc)).1

/-- A stored name reaches handler2, and its source URL the encode server,
exactly when no byte of its extension is reserved. -/
theorem stored_name_survives_iff (encodeHost fsHost : Host) (now : Int) (filename : Bytes) :
    (handleFileName (storedName now filename) = some (storedName now filename) ∧
        (handleFileName (storedName now filename)).bind (encodeSrcURL encodeHost fsHost) =
          some (sourceURL fsHost (storedName now filename))) ↔
      ∀ c ∈ ext filename, ¬Reserved c := by
  have hname : storedName now filename ≠ [] := by simp [storedName, decimal_ne_nil]
  have hext : (∀ c ∈ storedName now filename, ¬Reserved c) ↔ ∀ c ∈ ext filename, ¬Reserved c := by
    constructor
    · intro h c hc
      exact h c (List.mem_append_right _ hc)
    · intro h c hc
      rcases List.mem_append.mp hc with hd | he
      · exact decimal_not_reserved hd
      · exact h c he
  rw [← hext]
  constructor
  · intro h
    exact (handleFileName_eq_iff hname).mp h.1
  · intro h
    have h1 := (handleFileName_eq_iff hname).mpr h
    refine ⟨h1, ?_⟩
    rw [h1, Option.bind_some]
    exact (encodeSrcURL_eq_iff encodeHost fsHost _).mpr h

/-- An ampersand in the extension cuts the name, and the encoder is pointed
at another file. -/
theorem ampersand_name_cut :
    handleFileName (storedName 7 (ascii "a.b&c")) = some (ascii "7.b") ∧
      ¬∀ (encodeHost fsHost : Host) (now : Int) (filename : Bytes),
        handleFileName (storedName now filename) = some (storedName now filename) ∧
          (handleFileName (storedName now filename)).bind (encodeSrcURL encodeHost fsHost) =
            some (sourceURL fsHost (storedName now filename)) := by
  have hcut : handleFileName (storedName 7 (ascii "a.b&c")) = some (ascii "7.b") := by
    decide +kernel
  refine ⟨hcut, fun h => ?_⟩
  have hall := (h ⟨ascii "10.0.0.3", by decide⟩ ⟨ascii "10.0.0.2", by decide⟩ 7
    (ascii "a.b&c")).1
  rw [hcut] at hall
  exact absurd hall (by decide +kernel)

end VideooServer.RequestHops
