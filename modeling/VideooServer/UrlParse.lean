import VideooServer.PercentCodec

/-!
# Parsing of URLs

Go's net/url as of the golang 1.4 images: the fragment and the query are
cut off, scheme and authority are split from the rest, and the remaining
path is percent decoded. Error texts are not kept, since every caller
replaces them. The closed form at the end covers the URLs that are built
from a host, a port and a file name.
-/

namespace VideooServer.UrlParse

open ByteText PercentCodec

/-- The parts of a parsed URL. Credentials are checked and dropped. -/
structure URL where
  /-- Lower-case scheme, empty when the URL has none. -/
  scheme : Bytes
  /-- Undecoded rest of a URL with a scheme and no leading slash. -/
  opaquePart : Bytes
  /-- Host with its port, not decoded. -/
  host : Bytes
  /-- Percent decoded path. -/
  path : Bytes
  /-- Query without the question mark, not decoded. -/
  rawQuery : Bytes
  /-- Percent decoded fragment, without the number sign. -/
  fragment : Bytes
  deriving DecidableEq

/-- A URL without any part. -/
def emptyURL : URL := ⟨[], [], [], [], [], []⟩

/-- Letters, which alone may begin a scheme. -/
def isLetter (c : UInt8) : Bool :=
  (byte 'a' ≤ c && c ≤ byte 'z') || (byte 'A' ≤ c && c ≤ byte 'Z')

/-- The other bytes of a scheme. -/
def isSchemeRest (c : UInt8) : Bool :=
  (byte '0' ≤ c && c ≤ byte '9') || c == byte '+' || c == byte '-' || c == byte '.'

/-- Scan for the colon that ends a scheme, with the bytes seen before it.
A colon in first place is an error, any other byte means there is no scheme. -/
def getschemeFrom (rawurl seen : Bytes) : Bytes → Option (Bytes × Bytes)
  | [] => some ([], rawurl)
  | c :: t =>
    if isLetter c then getschemeFrom rawurl (seen ++ [c]) t
    else if isSchemeRest c then
      if seen = [] then some ([], rawurl) else getschemeFrom rawurl (seen ++ [c]) t
    else if c = byte ':' then
      if seen = [] then none else some (seen, t)
    else some ([], rawurl)

/-- Split a URL into its scheme and the rest after the colon. -/
def getscheme (rawurl : Bytes) : Option (Bytes × Bytes) := getschemeFrom rawurl [] rawurl

/-- Lower case of a scheme. -/
def toLower (s : Bytes) : Bytes :=
  s.map fun c => if byte 'A' ≤ c ∧ c ≤ byte 'Z' then c + 32 else c

/-- The part before the last separator, empty when there is none. -/
def upToLast (sep : UInt8) (s : Bytes) : Bytes := s.take (s.length - (pastLast sep s).length - 1)

/-- The host of an authority. Credentials before the last at sign must be
well escaped. -/
def parseAuthority (authority : Bytes) : Option Bytes :=
  if byte '@' ∈ authority then
    let userinfo := upToLast (byte '@') authority
    let host := pastLast (byte '@') authority
    if byte ':' ∈ userinfo then
      (unescape .encodeUserPassword (upTo (byte ':') userinfo)).bind fun _ =>
        (unescape .encodeUserPassword (pastFirst (byte ':') userinfo)).map fun _ => host
    else (unescape .encodeUserPassword userinfo).map fun _ => host
  else some authority

/-- Whether an authority follows the scheme. -/
def hasAuthority (scheme rest : Bytes) (viaRequest : Bool) : Bool :=
  (scheme ≠ [] || (!viaRequest && !(ascii "///").isPrefixOf rest)) && (ascii "//").isPrefixOf rest

/-- Parse authority and path, once scheme and query have been split off. -/
def parseHierarchy (scheme rest rawQuery : Bytes) (viaRequest : Bool) : Option URL :=
  if hasAuthority scheme rest viaRequest then
    let authority := upTo (byte '/') (rest.drop 2)
    let tail := (rest.drop 2).drop authority.length
    (parseAuthority authority).bind fun host =>
      if byte '%' ∈ host then none
      else (unescape .encodePath tail).map fun path => ⟨scheme, [], host, path, rawQuery, []⟩
  else (unescape .encodePath rest).map fun path => ⟨scheme, [], [], path, rawQuery, []⟩

/-- Parse a URL without its fragment. A request target, as opposed to a
URL written by hand, must not be empty and must begin with a slash. -/
def parse (rawurl : Bytes) (viaRequest : Bool) : Option URL :=
  if rawurl = [] ∧ viaRequest = true then none
  else if rawurl = ascii "*" then some { emptyURL with path := ascii "*" }
  else
    (getscheme rawurl).bind fun (scheme, rest) =>
      let path := upTo (byte '?') rest
      let rawQuery := pastFirst (byte '?') rest
      if (ascii "/").isPrefixOf path then
        parseHierarchy (toLower scheme) path rawQuery viaRequest
      else if scheme ≠ [] then
        some { emptyURL with scheme := toLower scheme, opaquePart := path, rawQuery := rawQuery }
      else if viaRequest then none
      else parseHierarchy (toLower scheme) path rawQuery viaRequest

/-- url.Parse: the fragment is cut off at the first number sign and
decoded when it is not empty. -/
def Parse (rawurl : Bytes) : Option URL :=
  let frag := pastFirst (byte '#') rawurl
  (parse (upTo (byte '#') rawurl) false).bind fun url =>
    if frag = [] then some url
    else (unescape .encodeFragment frag).map fun f => { url with fragment := f }

/-- url.ParseRequestURI: no fragment is expected in a request target. -/
def ParseRequestURI (rawurl : Bytes) : Option URL := parse rawurl true

/-- The bytes of a host name or an IPv4 address. -/
def HostByte (c : UInt8) : Prop :=
  isLetter c = true ∨ IsDigit c ∨ c = byte '.' ∨ c = byte '-'

instance (c : UInt8) : Decidable (HostByte c) := inferInstanceAs (Decidable (_ ∨ _))

/-- The host part of an address, as docker puts it in the environment. -/
structure Host where
  /-- Host name or IPv4 address. -/
  name : Bytes
  /-- No byte has a meaning of its own in a URL. -/
  plain : ∀ c ∈ name, HostByte c

/-- http://host:port/ followed by a tail, as the services print it. -/
def httpURL (host : Host) (port tail : Bytes) : Bytes :=
  ascii "http://" ++ host.name ++ ascii ":" ++ port ++ ascii "/" ++ tail

theorem Host.not_mem (host : Host) {c : UInt8} (h : ¬HostByte c) : c ∉ host.name :=
  fun hc => h (host.plain c hc)

/-- Host and port, the authority of a printed URL. -/
def authority (host : Host) (port : Bytes) : Bytes := host.name ++ ascii ":" ++ port

/-- A URL is its scheme, its authority and its path. -/
theorem httpURL_eq (host : Host) (port tail : Bytes) :
    httpURL host port tail = ascii "http://" ++ (authority host port ++ byte '/' :: tail) := by
  simp [httpURL, authority, ascii]

/-- An authority has host bytes, digits and one colon. -/
theorem not_mem_authority {host : Host} {port : Bytes} {c : UInt8} (hp : ∀ d ∈ port, IsDigit d)
    (hc : ¬HostByte c) (hcolon : c ≠ byte ':') : c ∉ authority host port := by
  simp only [authority, ascii, List.mem_append]
  rintro ((h | h) | h)
  · exact host.not_mem hc h
  · exact hcolon (by simpa using h)
  · exact hc (Or.inr (Or.inl (hp c h)))

/-- An authority without user information is the host. -/
theorem parseAuthority_plain {s : Bytes} (h : byte '@' ∉ s) : parseAuthority s = some s := by
  simp [parseAuthority, h]

/-- The scheme of a printed URL is read off its fixed beginning. -/
theorem getscheme_http (t : Bytes) : getscheme (ascii "http:" ++ t) = some (ascii "http", t) :=
  rfl

/-- The authority of a printed URL ends at the slash before the tail. -/
theorem parseHierarchy_authority {host : Host} {port : Bytes} (hp : ∀ d ∈ port, IsDigit d)
    (tail rawQuery : Bytes) (viaRequest : Bool) :
    parseHierarchy (ascii "http") (ascii "//" ++ (authority host port ++ byte '/' :: tail))
        rawQuery viaRequest =
      (unescape .encodePath (byte '/' :: tail)).map fun path =>
        ⟨ascii "http", [], authority host port, path, rawQuery, []⟩ := by
  have hslash : byte '/' ∉ authority host port := not_mem_authority hp (by decide) (by decide)
  have hat : byte '@' ∉ authority host port := not_mem_authority hp (by decide) (by decide)
  have hpct : byte '%' ∉ authority host port := not_mem_authority hp (by decide) (by decide)
  have hauth : hasAuthority (ascii "http")
      (ascii "//" ++ (authority host port ++ byte '/' :: tail)) viaRequest = true := by
    rfl
  have hdrop : (ascii "//" ++ (authority host port ++ byte '/' :: tail)).drop 2 =
      authority host port ++ byte '/' :: tail := rfl
  rw [parseHierarchy, if_pos hauth, hdrop, upTo_append_cons hslash]
  simp only [List.drop_left, parseAuthority_plain hat, Option.bind_some, if_neg hpct]

/-- A printed URL parses to its host and port, the decoded path of the
tail before a question mark and the undecoded query after it. -/
theorem parse_httpURL (host : Host) {port : Bytes} (hp : ∀ d ∈ port, IsDigit d) (tail : Bytes)
    (viaRequest : Bool) :
    parse (httpURL host port tail) viaRequest =
      (unescape .encodePath (byte '/' :: upTo (byte '?') tail)).map fun path =>
        ⟨ascii "http", [], authority host port, path, pastFirst (byte '?') tail, []⟩ := by
  have hq : byte '?' ∉ ascii "//" ++ (authority host port ++ [byte '/']) := by
    have ha : byte '?' ∉ authority host port := not_mem_authority hp (by decide) (by decide)
    simp only [List.mem_append, not_or]
    exact ⟨by decide, ha, by decide⟩
  have hrest : ascii "//" ++ (authority host port ++ byte '/' :: tail) =
      ascii "//" ++ (authority host port ++ [byte '/']) ++ tail := by simp
  have hurl : httpURL host port tail =
      ascii "http:" ++ (ascii "//" ++ (authority host port ++ byte '/' :: tail)) := by
    rw [httpURL_eq]
    rfl
  have hempty : ¬(httpURL host port tail = [] ∧ viaRequest = true) := by
    rw [hurl]
    exact fun h => absurd h.1 (List.cons_ne_nil _ _)
  have hstar : httpURL host port tail ≠ ascii "*" := by
    rw [hurl]
    intro h
    exact absurd (List.cons.inj h).1 (by decide)
  rw [parse, if_neg hempty, if_neg hstar, hurl, getscheme_http]
  simp only [Option.bind_some]
  rw [hrest, upTo_append hq, pastFirst_append hq]
  have hpath : ascii "//" ++ (authority host port ++ [byte '/']) ++ upTo (byte '?') tail =
      ascii "//" ++ (authority host port ++ byte '/' :: upTo (byte '?') tail) := by simp
  have hslash : (ascii "/").isPrefixOf
      (ascii "//" ++ (authority host port ++ byte '/' :: upTo (byte '?') tail)) = true := rfl
  rw [hpath, if_pos hslash]
  exact parseHierarchy_authority hp _ _ _

/-- The whole parser on a printed URL: the fragment of the tail is cut off
first and decoded on its own. -/
theorem Parse_httpURL (host : Host) {port : Bytes} (hp : ∀ d ∈ port, IsDigit d) (tail : Bytes) :
    Parse (httpURL host port tail) =
      (unescape .encodePath (byte '/' :: upTo (byte '?') (upTo (byte '#') tail))).bind fun path =>
        (unescape .encodeFragment (pastFirst (byte '#') tail)).map fun f =>
          ⟨ascii "http", [], authority host port, path,
            pastFirst (byte '?') (upTo (byte '#') tail), f⟩ := by
  have hf : byte '#' ∉ ascii "http://" ++ (authority host port ++ [byte '/']) := by
    have ha : byte '#' ∉ authority host port := not_mem_authority hp (by decide) (by decide)
    simp only [List.mem_append, not_or]
    exact ⟨by decide, ha, by decide⟩
  have hsplit : ∀ t, httpURL host port t =
      ascii "http://" ++ (authority host port ++ [byte '/']) ++ t := by
    intro t
    simp [httpURL_eq]
  have hcut : upTo (byte '#') (httpURL host port tail) =
      httpURL host port (upTo (byte '#') tail) := by
    rw [hsplit, upTo_append hf, ← hsplit]
  have hfrag : pastFirst (byte '#') (httpURL host port tail) = pastFirst (byte '#') tail := by
    rw [hsplit, pastFirst_append hf]
  rw [Parse, hcut, hfrag, parse_httpURL host hp]
  cases hu : unescape .encodePath (byte '/' :: upTo (byte '?') (upTo (byte '#') tail)) with
  | none => rfl
  | some path =>
    by_cases he : pastFirst (byte '#') tail = []
    · simp [he, unescape]
    · simp [he]

end VideooServer.UrlParse
